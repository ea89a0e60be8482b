import Homebase.Core.Fields
import Homebase.Multilite.RowChanges

set_option autoImplicit false

/-!
# Multilite: the frames of row changes (`logical/row.rs`, `value.rs`)

A statement's row changes are written as nested records of tagged fields: values in columns,
columns in rows, rows in deltas, deltas and the rules of their table in tables.  Every decoder
reads its fields with one loop and checks what it has read at the end.
-/

namespace Homebase.Multilite

open Foundation Homebase.Core

/-! ## Values and ids -/

/-- `i64::from_be_bytes`, of a word. -/
def I64.ofU64 (word : U64) : I64 :=
  if h : word.val < 2 ^ 63 then ⟨word.val, by omega, by omega⟩
  else ⟨(word.val : Int) - 2 ^ 64, by omega, by omega⟩

/-- `StoredValue::decode`, with the errors of `decode_stored_value`. -/
def StoredValue.decode (frame : Bytes) : Except RowCodecError StoredValue :=
  match frame with
  | [] => .error .truncated
  | kind :: rest =>
    if kind = 0 then
      if rest = [] then .ok .null else .error .invalidLength
    else if kind = 1 then
      match Reader.u64 rest with
      | some (bits, []) => .ok (.integer (I64.ofU64 bits))
      | some (_, _ :: _) => .error .invalidLength
      | none => .error .invalidLength
    else if kind = 2 then
      match Reader.u64 rest with
      | some (bits, []) => .ok (.real bits)
      | some (_, _ :: _) => .error .invalidLength
      | none => .error .invalidLength
    else if kind = 3 then .ok (.text rest)
    else if kind = 4 then .ok (.blob rest)
    else .error .invalidValue

/-- `get_version() == Some(Version::Random)` and `get_variant() == Variant::RFC4122`. -/
def RandomUuid (id : ByteArr 16) : Prop :=
  (id.bytes.getD 6 0).val / 16 = 4 ∧ (id.bytes.getD 8 0).val / 64 = 2

instance (id : ByteArr 16) : Decidable (RandomUuid id) := inferInstanceAs (Decidable (_ ∧ _))

/-- `uuid_bytes`. -/
def uuidBytes (value : Bytes) : Except RowCodecError (ByteArr 16) :=
  match ByteArr.ofBytes 16 value with
  | none => .error .invalidLength
  | some id => if RandomUuid id then .ok id else .error .invalidUuid

/-- `set_once`. -/
def setOnce {α : Type} (slot : Option α) (value : α) : Except RowCodecError (Option α) :=
  if slot.isSome then .error .duplicateField else .ok (some value)

/-- `slot.ok_or(MissingField(tag))`. -/
def orMissing {α : Type} (tag : U8) : Option α → Except RowCodecError α :=
  orFault (.missingField tag)

/-- `let [value] = value else { return Err(InvalidLength) }`. -/
def singleByte : Bytes → Except RowCodecError U8
  | [value] => .ok value
  | _ => .error .invalidLength

/-- `reader.u8() != Some(version)`: the rest of a frame of this version. -/
def versioned (version : U8) : Bytes → Except RowCodecError Bytes
  | [] => .error .unknownVersion
  | first :: rest => if first = version then .ok rest else .error .unknownVersion

/-! ## Parts of keys -/

/-- `Affinity::to_u8`. -/
def Affinity.toU8 : Affinity → U8
  | integer => 1
  | real => 2
  | text => 3
  | blob => 4
  | numeric => 5

/-- `Affinity::from_u8`. -/
def Affinity.fromU8 (value : U8) : Option Affinity :=
  if value = 1 then some integer
  else if value = 2 then some real
  else if value = 3 then some text
  else if value = 4 then some blob
  else if value = 5 then some numeric
  else none

/-- `encode_key_part`. -/
def encodeKeyPart (part : KeyPartRules) : Bytes :=
  Writer.fields [(1, part.column.bytes), (2, [part.affinity.toU8]),
    (3, [if part.rowidAlias then 1 else 0])]

/-- The slots of `decode_key_part`. -/
structure KeyPartFields where
  column : Option ColumnId
  affinity : Option Affinity
  flags : Option U8

def KeyPartFields.step (s : KeyPartFields) (entry : U8 × Bytes) :
    Except RowCodecError KeyPartFields :=
  if entry.1 = 1 then do
    let column ← setOnce s.column (← uuidBytes entry.2)
    .ok { s with column := column }
  else if entry.1 = 2 then do
    let value ← singleByte entry.2
    let affinity ← setOnce s.affinity (← orFault .invalidRow (Affinity.fromU8 value))
    .ok { s with affinity := affinity }
  else if entry.1 = 3 then do
    let value ← singleByte entry.2
    require (value.val ≤ 1) .invalidRow
    let flags ← setOnce s.flags value
    .ok { s with flags := flags }
  else .ok s

/-- `decode_key_part`. -/
def decodeKeyPart (frame : Bytes) : Except RowCodecError KeyPartRules := do
  let s ← readFields .truncated KeyPartFields.step ⟨none, none, none⟩ frame
  let column ← orMissing 1 s.column
  let affinity ← orMissing 2 s.affinity
  let flags ← orMissing 3 s.flags
  let rowidAlias := decide (flags = 1)
  require (rowidAlias = true → affinity = .integer) .invalidRow
  .ok ⟨column, affinity, rowidAlias⟩

/-! ## Rules -/

/-- `encode_index_rules`. -/
def encodeIndexRules (index : IndexRules) : Bytes :=
  Writer.fields ((1, index.index.bytes) :: index.parts.map fun part => (2, encodeKeyPart part))

/-- The slots of `decode_index_rules`. -/
structure IndexFields where
  index : Option IndexId
  parts : List KeyPartRules

def IndexFields.step (s : IndexFields) (entry : U8 × Bytes) : Except RowCodecError IndexFields :=
  if entry.1 = 1 then do
    let index ← setOnce s.index (← uuidBytes entry.2)
    .ok { s with index := index }
  else if entry.1 = 2 then do
    let part ← decodeKeyPart entry.2
    .ok { s with parts := s.parts ++ [part] }
  else .ok s

/-- `decode_index_rules`. -/
def decodeIndexRules (frame : Bytes) : Except RowCodecError IndexRules := do
  let s ← readFields .truncated IndexFields.step ⟨none, []⟩ frame
  require (s.parts ≠ [] ∧ (s.parts.map KeyPartRules.column).Nodup) .invalidRow
  let index ← orMissing 1 s.index
  .ok ⟨index, s.parts⟩

/-- A part of `encode_foreign_key`. -/
def encodeForeignKeyPart (part : ForeignKeyPartRules) : Bytes :=
  Writer.fields [(1, part.childColumn.bytes), (2, encodeKeyPart part.parent)]

/-- `encode_foreign_key`. -/
def encodeForeignKey (foreignKey : ForeignKeyRules) : Bytes :=
  Writer.fields ((1, foreignKey.id.bytes) :: (2, foreignKey.parentTable.bytes) ::
    (5, foreignKey.parentIndex.bytes) ::
      foreignKey.keyParts.map fun part => (4, encodeForeignKeyPart part))

/-- The slots of the inner loop of `decode_foreign_key`. -/
structure ForeignKeyPartFields where
  childColumn : Option ColumnId
  parent : Option KeyPartRules

def ForeignKeyPartFields.step (s : ForeignKeyPartFields) (entry : U8 × Bytes) :
    Except RowCodecError ForeignKeyPartFields :=
  if entry.1 = 1 then do
    let childColumn ← setOnce s.childColumn (← uuidBytes entry.2)
    .ok { s with childColumn := childColumn }
  else if entry.1 = 2 then do
    let parent ← setOnce s.parent (← decodeKeyPart entry.2)
    .ok { s with parent := parent }
  else .ok s

/-- The inner loop of `decode_foreign_key`. -/
def decodeForeignKeyPart (frame : Bytes) : Except RowCodecError ForeignKeyPartRules := do
  let s ← readFields .truncated ForeignKeyPartFields.step ⟨none, none⟩ frame
  let childColumn ← orMissing 1 s.childColumn
  let parent ← orMissing 2 s.parent
  .ok ⟨childColumn, parent⟩

/-- The slots of `decode_foreign_key`. -/
structure ForeignKeyFields where
  id : Option ForeignKeyId
  parentTable : Option TableId
  parentIndex : Option IndexId
  keyParts : List ForeignKeyPartRules

def ForeignKeyFields.step (s : ForeignKeyFields) (entry : U8 × Bytes) :
    Except RowCodecError ForeignKeyFields :=
  if entry.1 = 1 then do
    let id ← setOnce s.id (← uuidBytes entry.2)
    .ok { s with id := id }
  else if entry.1 = 2 then do
    let parentTable ← setOnce s.parentTable (← uuidBytes entry.2)
    .ok { s with parentTable := parentTable }
  else if entry.1 = 5 then do
    let parentIndex ← setOnce s.parentIndex (← uuidBytes entry.2)
    .ok { s with parentIndex := parentIndex }
  else if entry.1 = 4 then do
    let part ← decodeForeignKeyPart entry.2
    .ok { s with keyParts := s.keyParts ++ [part] }
  else .ok s

/-- `decode_foreign_key`. -/
def decodeForeignKey (frame : Bytes) : Except RowCodecError ForeignKeyRules := do
  let s ← readFields .truncated ForeignKeyFields.step ⟨none, none, none, []⟩ frame
  require (s.keyParts ≠ []) .invalidRow
  let id ← orMissing 1 s.id
  let parentTable ← orMissing 2 s.parentTable
  let parentIndex ← orMissing 5 s.parentIndex
  .ok ⟨id, parentTable, parentIndex, s.keyParts⟩

/-- `encode_incoming_foreign_key`. -/
def encodeIncomingForeignKey (incoming : IncomingForeignKeyRules) : Bytes :=
  Writer.fields ((1, incoming.id.bytes) :: (2, incoming.childTable.bytes) ::
    (3, incoming.childPrimaryIndex.bytes) :: (5, incoming.parentIndex.bytes) ::
      incoming.parentKeyParts.map fun part => (6, encodeKeyPart part))

/-- The slots of `decode_incoming_foreign_key`. -/
structure IncomingFields where
  id : Option ForeignKeyId
  childTable : Option TableId
  childPrimaryIndex : Option IndexId
  parentIndex : Option IndexId
  parentKeyParts : List KeyPartRules

def IncomingFields.step (s : IncomingFields) (entry : U8 × Bytes) :
    Except RowCodecError IncomingFields :=
  if entry.1 = 1 then do
    let id ← setOnce s.id (← uuidBytes entry.2)
    .ok { s with id := id }
  else if entry.1 = 2 then do
    let childTable ← setOnce s.childTable (← uuidBytes entry.2)
    .ok { s with childTable := childTable }
  else if entry.1 = 3 then do
    let childPrimaryIndex ← setOnce s.childPrimaryIndex (← uuidBytes entry.2)
    .ok { s with childPrimaryIndex := childPrimaryIndex }
  else if entry.1 = 5 then do
    let parentIndex ← setOnce s.parentIndex (← uuidBytes entry.2)
    .ok { s with parentIndex := parentIndex }
  else if entry.1 = 6 then do
    let part ← decodeKeyPart entry.2
    .ok { s with parentKeyParts := s.parentKeyParts ++ [part] }
  else .ok s

/-- `decode_incoming_foreign_key`. -/
def decodeIncomingForeignKey (frame : Bytes) : Except RowCodecError IncomingForeignKeyRules := do
  let s ← readFields .truncated IncomingFields.step ⟨none, none, none, none, []⟩ frame
  require (s.parentKeyParts ≠ []) .invalidRow
  let id ← orMissing 1 s.id
  let childTable ← orMissing 2 s.childTable
  let childPrimaryIndex ← orMissing 3 s.childPrimaryIndex
  let parentIndex ← orMissing 5 s.parentIndex
  .ok ⟨id, childTable, childPrimaryIndex, parentIndex, s.parentKeyParts⟩

/-- `TableStorage::to_u8`. -/
def TableStorage.toU8 : TableStorage → U8
  | rowid => 0
  | withoutRowid => 1

/-- `TableStorage::from_u8`. -/
def TableStorage.fromU8 (value : U8) : Option TableStorage :=
  if value = 0 then some rowid else if value = 1 then some withoutRowid else none

/-- The fields of `RowRules::encode_into`, after the version. -/
def RowRules.fields (rules : RowRules) : List (U8 × Bytes) :=
  [(1, rules.table.bytes), (2, rules.schemaRevision.bytes), (3, rules.primaryIndex.bytes),
      (4, [rules.storage.toU8])] ++
    (rules.keyParts.map (fun part => (5, encodeKeyPart part)) ++
      (rules.indexes.map (fun index => (6, encodeIndexRules index)) ++
        (rules.foreignKeys.map (fun foreignKey => (7, encodeForeignKey foreignKey)) ++
          rules.incomingForeignKeys.map fun incoming => (8, encodeIncomingForeignKey incoming))))

/-- `RowRules::encode`. -/
def RowRules.encode (rules : RowRules) : Bytes := 2 :: Writer.fields rules.fields

/-- The slots of `decode_row_rules`. -/
structure RuleFields where
  table : Option TableId
  schemaRevision : Option SchemaRevisionId
  primaryIndex : Option IndexId
  storage : Option TableStorage
  keyParts : List KeyPartRules
  indexes : List IndexRules
  foreignKeys : List ForeignKeyRules
  incomingForeignKeys : List IncomingForeignKeyRules

/-- A field of `decode_row_rules`; rows are not allowed. -/
def RuleFields.step (s : RuleFields) (entry : U8 × Bytes) : Except RowCodecError RuleFields :=
  if entry.1 = 1 then do
    let table ← setOnce s.table (← uuidBytes entry.2)
    .ok { s with table := table }
  else if entry.1 = 2 then do
    let schemaRevision ← setOnce s.schemaRevision (← uuidBytes entry.2)
    .ok { s with schemaRevision := schemaRevision }
  else if entry.1 = 3 then do
    let primaryIndex ← setOnce s.primaryIndex (← uuidBytes entry.2)
    .ok { s with primaryIndex := primaryIndex }
  else if entry.1 = 4 then do
    let value ← singleByte entry.2
    let storage ← setOnce s.storage (← orFault .invalidRow (TableStorage.fromU8 value))
    .ok { s with storage := storage }
  else if entry.1 = 5 then do
    let part ← decodeKeyPart entry.2
    .ok { s with keyParts := s.keyParts ++ [part] }
  else if entry.1 = 6 then do
    let index ← decodeIndexRules entry.2
    .ok { s with indexes := s.indexes ++ [index] }
  else if entry.1 = 7 then do
    let foreignKey ← decodeForeignKey entry.2
    .ok { s with foreignKeys := s.foreignKeys ++ [foreignKey] }
  else if entry.1 = 8 then do
    let incoming ← decodeIncomingForeignKey entry.2
    .ok { s with incomingForeignKeys := s.incomingForeignKeys ++ [incoming] }
  else if entry.1 = 9 then .error .invalidRow
  else .ok s

/-- `RowRules::decode`. -/
def RowRules.decode (frame : Bytes) : Except RowCodecError RowRules := do
  let rest ← versioned 2 frame
  let s ← readFields .truncated RuleFields.step ⟨none, none, none, none, [], [], [], []⟩ rest
  let table ← orMissing 1 s.table
  let schemaRevision ← orMissing 2 s.schemaRevision
  let primaryIndex ← orMissing 3 s.primaryIndex
  let storage ← orMissing 4 s.storage
  let rules : RowRules := ⟨table, schemaRevision, primaryIndex, storage, s.keyParts, s.indexes,
    s.foreignKeys, s.incomingForeignKeys⟩
  rules.validate
  .ok rules

/-! ## Rows -/

/-- The slots of `decode_column_value`. -/
structure ColumnValueFields where
  column : Option ColumnId
  value : Option StoredValue

def ColumnValueFields.step (s : ColumnValueFields) (entry : U8 × Bytes) :
    Except RowCodecError ColumnValueFields :=
  if entry.1 = 1 then do
    let column ← setOnce s.column (← uuidBytes entry.2)
    .ok { s with column := column }
  else if entry.1 = 2 then do
    let value ← setOnce s.value (← StoredValue.decode entry.2)
    .ok { s with value := value }
  else .ok s

/-- `decode_column_value`. -/
def decodeColumnValue (frame : Bytes) : Except RowCodecError (ColumnId × StoredValue) := do
  let s ← readFields .truncated ColumnValueFields.step ⟨none, none⟩ frame
  let column ← orMissing 1 s.column
  let value ← orMissing 2 s.value
  .ok (column, value)

/-- `encode_row_image`. -/
def encodeRowImage (row : Row) : Bytes :=
  1 :: Writer.fields (row.values.map fun pair => (4, encodeColumnValue pair.1 pair.2))

/-- A field of `decode_row_image`. -/
def rowImageStep (values : List (ColumnId × StoredValue)) (entry : U8 × Bytes) :
    Except RowCodecError (List (ColumnId × StoredValue)) :=
  if entry.1 = 4 then do
    let value ← decodeColumnValue entry.2
    .ok (values ++ [value])
  else .ok values

/-- `validate_row_values`. -/
def validateRowValues (values : List (ColumnId × StoredValue)) : Except RowCodecError Row := do
  require (values ≠ []) .invalidRow
  require (values.map Prod.fst).Nodup .duplicateField
  .ok ⟨values⟩

/-- `decode_row_image`. -/
def decodeRowImage (frame : Bytes) : Except RowCodecError Row := do
  let rest ← versioned 1 frame
  let values ← readFields .truncated rowImageStep [] rest
  validateRowValues values

/-! ## Changes -/

/-- The fields of `RowDelta::encode`, after the version. -/
def RowDelta.fields (delta : RowDelta) : List (U8 × Bytes) :=
  delta.before.toList.map (fun row => (1, encodeRowImage row)) ++
    delta.after.toList.map fun row => (2, encodeRowImage row)

/-- `RowDelta::encode`. -/
def RowDelta.encode (delta : RowDelta) : Bytes := 1 :: Writer.fields delta.fields

def RowDelta.step (s : RowDelta) (entry : U8 × Bytes) : Except RowCodecError RowDelta :=
  if entry.1 = 1 then do
    let before ← setOnce s.before (← decodeRowImage entry.2)
    .ok { s with before := before }
  else if entry.1 = 2 then do
    let after ← setOnce s.after (← decodeRowImage entry.2)
    .ok { s with after := after }
  else .ok s

/-- `RowDelta::decode`. -/
def RowDelta.decode (frame : Bytes) : Except RowCodecError RowDelta := do
  let rest ← versioned 1 frame
  readFields .truncated RowDelta.step ⟨none, none⟩ rest

/-- The fields of `TableChanges::encode`, after the version. -/
def TableChanges.fields (table : TableChanges) : List (U8 × Bytes) :=
  (1, table.rules.encode) :: table.rows.map fun delta => (2, delta.encode)

/-- `TableChanges::encode`. -/
def TableChanges.encode (table : TableChanges) : Bytes := 1 :: Writer.fields table.fields

/-- The slots of `TableChanges::decode`. -/
structure TableFields where
  rules : Option RowRules
  rows : List RowDelta

def TableFields.step (s : TableFields) (entry : U8 × Bytes) : Except RowCodecError TableFields :=
  if entry.1 = 1 then do
    let rules ← setOnce s.rules (← RowRules.decode entry.2)
    .ok { s with rules := rules }
  else if entry.1 = 2 then do
    let delta ← RowDelta.decode entry.2
    .ok { s with rows := s.rows ++ [delta] }
  else .ok s

/-- `TableChanges::decode`. -/
def TableChanges.decode (frame : Bytes) : Except RowCodecError TableChanges := do
  let rest ← versioned 1 frame
  let s ← readFields .truncated TableFields.step ⟨none, []⟩ rest
  let rules ← orMissing 1 s.rules
  let table : TableChanges := ⟨rules, s.rows⟩
  table.validateStructure
  .ok table

namespace RowChanges

/-- `RowChanges::encode`. -/
def encode (changes : RowChanges) : Bytes :=
  1 :: Writer.fields (changes.map fun table => (1, table.encode))

/-- A field of `RowChanges::decode`. -/
def step (tables : List TableChanges) (entry : U8 × Bytes) :
    Except RowCodecError (List TableChanges) :=
  if entry.1 = 1 then do
    let table ← TableChanges.decode entry.2
    .ok (tables ++ [table])
  else .ok tables

/-- The length that the budget check computes. -/
def budgetBytes (changes : RowChanges) : Except RowCodecError Nat :=
  changes.foldlM (fun bytes table => do
    let encoded ← table.encodedLen fun rules => rules.encode.length
    let encoded ← fieldLen encoded
    .ok (bytes + encoded)) 1

/-- `validate_budget_codec`. -/
def validateBudgetCodec (changes : RowChanges) : Except RowCodecError Unit := do
  require ((changes.map fun table => table.rows.length).sum ≤ maxCapturedChanges) .tooManyChanges
  let bytes ← changes.budgetBytes
  require (bytes ≤ maxRowOperationBytes) .frameTooLarge

/-- `RowChanges::decode`. -/
def decode (frame : Bytes) : Except RowCodecError RowChanges := do
  require (frame.length ≤ maxRowOperationBytes) .frameTooLarge
  let rest ← versioned 1 frame
  let changes ← readFields .truncated step [] rest
  require (changes ≠ []) (.missingField 1)
  validateStructure changes
  RowChanges.validateBudgetCodec changes
  .ok changes

end RowChanges

end Homebase.Multilite
