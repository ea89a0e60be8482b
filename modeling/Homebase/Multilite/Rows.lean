import Homebase.Multilite.Targets

set_option autoImplicit false

/-!
# Multilite: rows and the rules of their tables (`logical/row.rs`, `value.rs`)

The rules of a table say which cells a row occupies: one under its primary key, one for
each unique key without NULL and one for each foreign reference without NULL.  They are
read off the catalog.
-/

namespace Homebase.Multilite

open Foundation Homebase.Core

/-! ## Values -/

/-- `i64`. -/
abbrev I64 : Type := { i : Int // -2 ^ 63 ≤ i ∧ i < 2 ^ 63 }

/-- `StoredValue`. -/
inductive StoredValue where
  | null
  | integer (value : I64)
  | real (bits : U64)
  | text (bytes : Bytes)
  | blob (bytes : Bytes)
  deriving DecidableEq

/-- A signed word as its two's complement. -/
def I64.toU64 (i : I64) : U64 := U64.ofNat (Int.toNat (i.val % 2 ^ 64))

/-- The integer a double stands for, if it is finite, integral and in the range of `i64`:
`value.is_finite() && value.fract() == 0.0 && ..`, `value as i64`. -/
def realInteger (bits : U64) : Option I64 :=
  let exponent : Nat := bits.val / 2 ^ 52 % 2 ^ 11
  let fraction : Nat := bits.val % 2 ^ 52
  if exponent = 2047 then none
  else
    let significand : Nat := if exponent = 0 then fraction else 2 ^ 52 + fraction
    let scale := max exponent 1
    if scale < 1075 ∧ significand % 2 ^ (1075 - scale) ≠ 0 then none
    else
      let magnitude : Nat :=
        if scale < 1075 then significand / 2 ^ (1075 - scale)
        else significand * 2 ^ (scale - 1075)
      let value : Int := if 2 ^ 63 ≤ bits.val then -(magnitude : Int) else magnitude
      if h : -2 ^ 63 ≤ value ∧ value < 2 ^ 63 then some ⟨value, h⟩ else none

/-- `StoredValue::encode`. -/
def StoredValue.encode : StoredValue → Bytes
  | null => [0]
  | integer value => 1 :: toBE 8 value.toU64.val
  | real bits => 2 :: toBE 8 bits.val
  | text bytes => 3 :: bytes
  | blob bytes => 4 :: bytes

/-- `StoredValue::encoded_len`. -/
def StoredValue.encodedLen : StoredValue → Nat
  | null => 1
  | integer _ => 9
  | real _ => 9
  | text bytes => 1 + bytes.length
  | blob bytes => 1 + bytes.length

/-- `RowCodecError`. -/
inductive RowCodecError where
  | unknownVersion
  | truncated
  | missingField (tag : U8)
  | invalidUuid
  | invalidValue
  | invalidRow
  | nullPrimaryKey
  | invalidKey (error : KeyError)
  | duplicateField
  | duplicateRow
  | duplicateUniqueKey
  | tooManyChanges
  | frameTooLarge
  | invalidLength
  deriving DecidableEq

/-! ## The catalog -/

/-- `Affinity`. -/
inductive Affinity where
  | integer
  | real
  | text
  | blob
  | numeric
  deriving DecidableEq

/-- `TableStorage`. -/
inductive TableStorage where
  | rowid
  | withoutRowid
  deriving DecidableEq

/-! ## Rules -/

/-- `KeyPartRules`. -/
structure KeyPartRules where
  column : ColumnId
  affinity : Affinity
  rowidAlias : Bool
  deriving DecidableEq

/-- `IndexRules`. -/
structure IndexRules where
  index : IndexId
  parts : List KeyPartRules
  deriving DecidableEq

/-- `ForeignKeyPartRules`. -/
structure ForeignKeyPartRules where
  childColumn : ColumnId
  parent : KeyPartRules
  deriving DecidableEq

/-- `ForeignKeyRules`. -/
structure ForeignKeyRules where
  id : ForeignKeyId
  parentTable : TableId
  parentIndex : IndexId
  keyParts : List ForeignKeyPartRules
  deriving DecidableEq

/-- `IncomingForeignKeyRules`. -/
structure IncomingForeignKeyRules where
  id : ForeignKeyId
  childTable : TableId
  childPrimaryIndex : IndexId
  parentIndex : IndexId
  parentKeyParts : List KeyPartRules
  deriving DecidableEq

/-- `RowRules`. -/
structure RowRules where
  table : TableId
  schemaRevision : SchemaRevisionId
  primaryIndex : IndexId
  storage : TableStorage
  keyParts : List KeyPartRules
  indexes : List IndexRules
  foreignKeys : List ForeignKeyRules
  incomingForeignKeys : List IncomingForeignKeyRules
  deriving DecidableEq

/-- A value that must be there. -/
def orFault {ε α : Type} (fault : ε) : Option α → Except ε α
  | some a => .ok a
  | none => .error fault

/-! ## Rows -/

/-- `Row`. -/
structure Row where
  values : List (ColumnId × StoredValue)
  deriving DecidableEq

/-- `Row::value`. -/
def Row.value (row : Row) (column : ColumnId) : Option StoredValue :=
  (row.values.find? fun pair => decide (pair.1 = column)).map Prod.snd

/-- The image of an integer: its kind and its bits with the sign flipped. -/
def integerImage (value : I64) : Bytes := 1 :: toBE 8 (Int.toNat (value.val + 2 ^ 63))

/-- The image of a double that is not an integer: its kind and its bits in order. -/
def realImage (bits : U64) : Bytes :=
  2 :: toBE 8 (if bits.val < 2 ^ 63 then bits.val + 2 ^ 63 else 2 ^ 64 - 1 - bits.val)

/-- `key_image`. -/
def keyImage (value : StoredValue) (rules : KeyPartRules) : Except RowCodecError Bytes :=
  match value with
  | .null => .error .nullPrimaryKey
  | .integer value =>
      if rules.affinity = .text then .error .invalidRow else .ok (integerImage value)
  | .real bits =>
      if rules.affinity = .text then .error .invalidRow
      else
        match realInteger bits with
        | some value => .ok (integerImage value)
        | none => .ok (realImage bits)
  | .text bytes => .ok (3 :: bytes)
  | .blob bytes => .ok (4 :: bytes)

/-- `index_image`. -/
def indexImage (value : StoredValue) (rules : KeyPartRules) : Except RowCodecError Bytes :=
  if value = .null then .ok [0] else keyImage value rules

/-- What the loops over unique keys, references and referenced keys have in common: the
values of the parts, and their images if none of them is NULL. -/
def tupleImages (image : StoredValue → KeyPartRules → Except RowCodecError Bytes)
    (parts : List (ColumnId × KeyPartRules)) (row : Row) :
    Except RowCodecError (Option (List Bytes)) := do
  let values ← parts.mapM fun part => orFault .invalidRow (row.value part.1)
  if .null ∈ values then .ok none
  else
    let images ← (values.zip parts).mapM fun pair => image pair.1 pair.2.2
    .ok (some images)

/-- The rounds of a loop that push something. -/
def collect {ε α β : Type} (f : α → Except ε (Option β)) (l : List α) : Except ε (List β) := do
  let pushed ← l.mapM f
  .ok pushed.reduceOption

/-- A key that does not fit. -/
def orInvalidTarget {α : Type} : Except KeyError α → Except RowCodecError α
  | .ok a => .ok a
  | .error error => .error (.invalidKey error)

/-- `Writer::field`, for a payload that fits. -/
def field (tag : U8) (payload : Bytes) : Bytes := tag :: (toBE 4 payload.length ++ payload)

/-- `encode_column_value`. -/
def encodeColumnValue (column : ColumnId) (value : StoredValue) : Bytes :=
  field 1 column.bytes ++ field 2 value.encode

namespace RowRules

/-- `RowRules::key_images`. -/
def keyImages (rules : RowRules) (row : Row) : Except RowCodecError (List Bytes) :=
  rules.keyParts.mapM fun part => do
    let value ← orFault .invalidRow (row.value part.column)
    keyImage value part

/-- `RowRules::row_key`. -/
def rowKey (rules : RowRules) (row : Row) : Except RowCodecError Key := do
  let images ← rules.keyImages row
  orInvalidTarget (LogicalTarget.row rules.table rules.primaryIndex images).render

/-- `RowRules::encode_row`. -/
def encodeRow (rules : RowRules) (row : Row) : Bytes :=
  6 :: (field 1 rules.schemaRevision.bytes ++
    row.values.flatMap fun pair => field 4 (encodeColumnValue pair.1 pair.2))

/-- `RowRules::index_entries`: the unique key and its owner, for each index. -/
def indexEntries (rules : RowRules) (row : Row) : Except RowCodecError (List (Key × Bytes)) := do
  let key ← rules.rowKey row
  collect (fun index => do
    match ← tupleImages indexImage (index.parts.map fun part => (part.column, part)) row with
    | none => .ok none
    | some images =>
        let entry ← orInvalidTarget (LogicalTarget.uniqueOwner rules.table index.index images).render
        .ok (some (entry, key.encode))) rules.indexes

/-- `RowRules::foreign_references`: the reference and its owner, for each foreign key. -/
def foreignReferences (rules : RowRules) (row : Row) :
    Except RowCodecError (List (Key × Bytes)) := do
  let key ← rules.rowKey row
  let childImages ← rules.keyImages row
  collect (fun foreignKey => do
    match ← tupleImages keyImage
        (foreignKey.keyParts.map fun part => (part.childColumn, part.parent)) row with
    | none => .ok none
    | some images =>
        let reference ← orInvalidTarget (LogicalTarget.foreignReference foreignKey.parentTable
          foreignKey.id foreignKey.parentIndex images rules.primaryIndex childImages).render
        .ok (some (reference, key.encode))) rules.foreignKeys

/-- `RowRules::incoming_reference_prefixes`. -/
def incomingReferencePrefixes (rules : RowRules) (row : Row) : Except RowCodecError (List Key) :=
  collect (fun incoming => do
    match ← tupleImages keyImage
        (incoming.parentKeyParts.map fun part => (part.column, part)) row with
    | none => .ok none
    | some images =>
        let target ← orInvalidTarget (LogicalTarget.foreignReferencePrefix rules.table incoming.id
          incoming.parentIndex images).render
        .ok (some target)) rules.incomingForeignKeys

end RowRules

end Homebase.Multilite
