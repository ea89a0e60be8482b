import Homebase.Multilite.Manifest
import Homebase.Multilite.RowEvents

set_option autoImplicit false

/-!
# Multilite: captured rows (`catalog.rs`, `logical/schema.rs`, `logical/row.rs`)

The catalog keeps the definition of every table.  A row that SQLite reports gets its columns from
the definition of its table, and the rules of the table are read off the definitions of the table,
its parents and its children.

A stored definition stands here as the fields of its frame.  Names of columns and constraints,
defaults, CHECK constraints and terms of indexes do not reach a row and are left out, and so are the
checks of `validate_table_schema`, of the revision and of the SQL text: more catalogs are loaded here
than in the source.
-/

namespace Homebase.Multilite

open Foundation Homebase.Core

/-! ## Definitions -/

/-- `TableMode`. -/
inductive TableMode where
  | ordinary
  | strict
  deriving DecidableEq

/-- `StrictType`. -/
inductive StrictType where
  | integer
  | real
  | text
  | blob
  | any
  deriving DecidableEq

/-- `TypeDeclaration`, its name in upper case. -/
structure TypeDeclaration where
  name : String
  arguments : List String

namespace TypeDeclaration

/-- `self.name.contains(part)`, for one of the parts. -/
def mentions (declared : TypeDeclaration) (parts : List String) : Bool :=
  parts.any fun part => decide (part.toList <:+: declared.name.toList)

/-- `TypeDeclaration::affinity`. -/
def affinity (declared : TypeDeclaration) : Affinity :=
  if declared.mentions ["INT"] then .integer
  else if declared.mentions ["CHAR", "CLOB", "TEXT"] then .text
  else if declared.mentions ["BLOB"] then .blob
  else if declared.mentions ["REAL", "FLOA", "DOUB"] then .real
  else .numeric

/-- `strict_type`. -/
def strictType (declared : TypeDeclaration) : Option StrictType :=
  if declared.arguments ≠ [] then none
  else if declared.name = "INT" ∨ declared.name = "INTEGER" then some .integer
  else if declared.name = "REAL" then some .real
  else if declared.name = "TEXT" then some .text
  else if declared.name = "BLOB" then some .blob
  else if declared.name = "ANY" then some .any
  else none

/-- `affinity_for`. -/
def affinityFor (declared : TypeDeclaration) (mode : TableMode) : Affinity :=
  if mode = .strict ∧ declared.strictType = some .any then .blob else declared.affinity

/-- `is_exact_integer`. -/
def isExactInteger (declared : TypeDeclaration) : Bool :=
  decide (declared.name = "INTEGER" ∧ declared.arguments = [])

end TypeDeclaration

/-- `Column`. -/
structure Column where
  id : ColumnId
  declaredType : TypeDeclaration
  notNull : Bool

/-- `IndexKind`. -/
inductive IndexKind where
  | primary
  | unique
  | secondary
  deriving DecidableEq

/-- `IndexDefinition`. -/
structure IndexDefinition where
  id : IndexId
  kind : IndexKind
  columns : List ColumnId

/-- `UniqueConstraint` and `NamedIndex`: an index, and whether it is active. -/
structure NamedIndex where
  index : IndexDefinition
  active : Bool

/-- `ForeignKeyDefinition`. -/
structure ForeignKeyDefinition where
  id : ForeignKeyId
  columns : List ColumnId
  referencedTable : TableId
  referencedIndex : IndexId
  referencedColumns : List ColumnId
  active : Bool

/-- `CreateTable`. -/
structure CreateTable where
  mutationId : ByteArr 16
  tableId : TableId
  schemaRevisionId : SchemaRevisionId
  mode : TableMode
  storage : TableStorage
  columns : List Column
  primaryKey : IndexDefinition
  uniqueConstraints : List NamedIndex
  indexes : List NamedIndex
  foreignKeys : List ForeignKeyDefinition

namespace CreateTable

/-- The ids that `validate_create_table` compares. -/
def identities (created : CreateTable) : List (ByteArr 16) :=
  [created.mutationId, created.tableId, created.schemaRevisionId, created.primaryKey.id] ++
    created.columns.map Column.id ++ created.uniqueConstraints.map (fun unique => unique.index.id) ++
    created.indexes.map (fun index => index.index.id) ++
    created.foreignKeys.map ForeignKeyDefinition.id

/-- `decode_definition`: every id passes `uuid_bytes`, and no id is used twice. -/
def decodeDefinition (definition : CreateTable) : Except FoldFault CreateTable := do
  require ((∀ id ∈ definition.identities, RandomUuid id) ∧ definition.identities.Nodup)
    (.capture "schema catalog is malformed")
  .ok definition

/-- `columns.iter().find(..)`. -/
def column (created : CreateTable) (id : ColumnId) : Option Column :=
  created.columns.find? fun column => decide (column.id = id)

/-- `primary_key_columns`, each of which is expected. -/
def primaryKeyColumns (created : CreateTable) : Except FoldFault (List Column) :=
  created.primaryKey.columns.mapM fun id => orFault .outOfBounds (created.column id)

/-- `is_rowid_alias`. -/
def isRowidAlias (created : CreateTable) (id : ColumnId) : Bool :=
  decide (created.storage = .rowid ∧ created.primaryKey.columns = [id]) &&
    (created.column id).any fun column => column.declaredType.isExactInteger

/-- A part of a key over this column. -/
def keyPart (created : CreateTable) (column : Column) (rowidAlias : Bool) : KeyPartRules :=
  ⟨column.id, column.declaredType.affinityFor created.mode, rowidAlias⟩

/-- `index_definition`. -/
def indexDefinition (created : CreateTable) (index : IndexId) : Option IndexDefinition :=
  (created.primaryKey :: (created.uniqueConstraints ++ created.indexes).map NamedIndex.index).find?
    fun definition => decide (definition.id = index)

/-- `foreign_key_target_columns`, with the error its callers make of `None`. -/
def foreignKeyTargetColumns (created : CreateTable) (index : IndexId) :
    Except FoldFault (List Column) := do
  let inactive := .capture "foreign key target is no longer active in the parent schema"
  let definition ← orFault inactive (created.indexDefinition index)
  require (¬ (definition.kind = .secondary ∨ definition.kind = .unique ∧
    ∃ unique ∈ created.uniqueConstraints ++ created.indexes,
      unique.index.id = definition.id ∧ unique.active = false)) inactive
  definition.columns.mapM fun id => orFault inactive (created.column id)

end CreateTable

/-! ## The catalog -/

/-- `CatalogSnapshot`. -/
structure CatalogSnapshot where
  tables : OrdMap TableId CreateTable
  names : OrdMap Bytes TableId

/-- `SqlName::canonical`. -/
def canonicalName (name : Bytes) : Bytes :=
  name.map fun byte => if 65 ≤ byte ∧ byte ≤ 90 then byte + 32 else byte

/-- A row of the catalog table. -/
structure CatalogRow where
  tableName : Bytes
  tableId : Bytes
  definition : CreateTable

namespace CatalogSnapshot

/-- One round of `load`. -/
def loadRow (catalog : CatalogSnapshot) (row : CatalogRow) : Except FoldFault CatalogSnapshot := do
  let created ← row.definition.decodeDefinition
  require (canonicalName row.tableName = row.tableName ∧ row.tableId = created.tableId.bytes ∧
      catalog.tables.get created.tableId = none ∧ catalog.names.get row.tableName = none)
    (.capture "schema catalog snapshot contains contradictory bindings")
  .ok ⟨catalog.tables.insert created.tableId created,
    catalog.names.insert row.tableName created.tableId⟩

/-- `CatalogSnapshot::load`. -/
def load (rows : List CatalogRow) : Except FoldFault CatalogSnapshot :=
  rows.foldlM loadRow ⟨OrdMap.empty, OrdMap.empty⟩

/-- `by_name`. -/
def byName (catalog : CatalogSnapshot) (name : Bytes) : Option CreateTable := do
  let id ← catalog.names.get (canonicalName name)
  catalog.tables.get id

/-- `incoming_foreign_keys`. -/
def incomingForeignKeys (catalog : CatalogSnapshot) (parent : TableId) :
    List (CreateTable × ForeignKeyDefinition) :=
  catalog.tables.values.flatMap fun child =>
    (child.foreignKeys.filter fun foreignKey =>
      foreignKey.active && decide (foreignKey.referencedTable = parent)).map fun foreignKey =>
        (child, foreignKey)

end CatalogSnapshot

/-! ## Rules -/

/-- `index_rules`. -/
def indexRules (created : CreateTable) : Except FoldFault (List IndexRules) :=
  (created.uniqueConstraints.filter NamedIndex.active ++ created.indexes.filter fun index =>
      index.active && decide (index.index.kind = .unique)).mapM fun index => do
    let parts ← index.index.columns.mapM fun id => do
      let column ← orFault .outOfBounds (created.column id)
      .ok (created.keyPart column false)
    .ok ⟨index.index.id, parts⟩

/-- `foreign_key_rule`. -/
def foreignKeyRule (catalog : CatalogSnapshot) (child : CreateTable)
    (foreignKey : ForeignKeyDefinition) : Except FoldFault ForeignKeyRules := do
  let parent ← orFault (.capture "foreign key references an unknown parent table")
    (catalog.tables.get foreignKey.referencedTable)
  let parentColumns ← parent.foreignKeyTargetColumns foreignKey.referencedIndex
  require (parentColumns.map Column.id = foreignKey.referencedColumns)
    (.capture "foreign key parent identity contradicts the schema catalog")
  let keyParts ← (foreignKey.columns.zip parentColumns).mapM fun pair => do
    require (∃ column ∈ child.columns, column.id = pair.1)
      (.capture "foreign key references an unknown child column")
    .ok ⟨pair.1, parent.keyPart pair.2 (parent.isRowidAlias pair.2.id)⟩
  .ok ⟨foreignKey.id, parent.tableId, foreignKey.referencedIndex, keyParts⟩

/-- `foreign_key_rules`. -/
def foreignKeyRules (catalog : CatalogSnapshot) (created : CreateTable) :
    Except FoldFault (List ForeignKeyRules) :=
  (created.foreignKeys.filter ForeignKeyDefinition.active).mapM (foreignKeyRule catalog created)

/-- `incoming_foreign_key_rules`. -/
def incomingForeignKeyRules (catalog : CatalogSnapshot) (parent : CreateTable) :
    Except FoldFault (List IncomingForeignKeyRules) :=
  (catalog.incomingForeignKeys parent.tableId).mapM fun (child, foreignKey) => do
    let _ ← foreignKeyRule catalog child foreignKey
    let target := foreignKey.referencedIndex
    let columns ← parent.foreignKeyTargetColumns target
    .ok ⟨foreignKey.id, child.tableId, child.primaryKey.id, target, columns.map fun column =>
      parent.keyPart column
        (decide (target = parent.primaryKey.id) && parent.isRowidAlias column.id)⟩

/-- `RowRules::from_table`. -/
def RowRules.fromTable (catalog : CatalogSnapshot) (created : CreateTable) :
    Except FoldFault RowRules := do
  let primary ← created.primaryKeyColumns
  let indexes ← indexRules created
  let foreignKeys ← foreignKeyRules catalog created
  let incoming ← incomingForeignKeyRules catalog created
  .ok ⟨created.tableId, created.schemaRevisionId, created.primaryKey.id, created.storage,
    primary.map fun column => created.keyPart column (created.isRowidAlias column.id),
    indexes, foreignKeys, incoming⟩

/-! ## Rows -/

/-- `CapturedRow`, with its table as the bytes of the name. -/
structure CapturedRow where
  table : Bytes
  rowid : I64
  values : List StoredValue

/-- `(value as f64).to_bits()`: rounded to the nearest double, ties to even. -/
def I64.toReal (value : I64) : U64 :=
  let magnitude := value.val.natAbs
  let exponent := magnitude.log2
  let shift := exponent - 52
  let significand := magnitude * 2 ^ (52 - exponent) / 2 ^ shift
  let rest := magnitude % 2 ^ shift
  let up := 2 ^ shift < 2 * rest ∨ 2 ^ shift = 2 * rest ∧ significand % 2 = 1
  let sign := if value.val < 0 then 2 ^ 63 else 0
  U64.ofNat (if magnitude = 0 then 0
    else sign + (exponent + 1022) * 2 ^ 52 + significand + if up then 1 else 0)

/-- `normalize_captured_value`. -/
def normalizeCapturedValue (value : StoredValue) (affinity : Affinity) : StoredValue :=
  match affinity, value with
  | .real, .integer value => .real value.toReal
  | _, value => value

/-- `strict_value_matches`. -/
def strictValueMatches (column : Column) (value : StoredValue) : Bool :=
  match column.declaredType.strictType, value with
  | _, .null => !column.notNull
  | some .integer, .integer _ => true
  | some .real, .real _ => true
  | some .text, .text _ => true
  | some .blob, .blob _ => true
  | some .any, _ => true
  | _, _ => false

/-- An image that must exist. -/
def orImage {α : Type} (kind : String) : Except RowCodecError α → Except FoldFault α
  | .ok a => .ok a
  | .error error => .error (.image kind error)

/-- What `capture` checks of a row in a rowid table. -/
def RowRules.checkRowid (rules : RowRules) (created : CreateTable) (rowid : I64) (row : Row) :
    Except FoldFault Unit :=
  if rules.storage = .rowid then do
    let primary ← created.primaryKeyColumns
    let aliased ← orFault (.capture "rowid table is missing its INTEGER PRIMARY KEY alias")
      (primary.head?.filter fun column => created.isRowidAlias column.id)
    require ((aliased.id, .integer rowid) ∈ row.values)
      (.capture "captured rowid contradicts its INTEGER PRIMARY KEY")
  else .ok ()

/-- `RowRules::capture`. -/
def RowRules.capture (rules : RowRules) (created : CreateTable) (captured : CapturedRow) :
    Except FoldFault Row := do
  require (captured.values.length = created.columns.length)
    (.capture "captured row width does not match its schema catalog")
  let row : Row := ⟨(created.columns.zip captured.values).map fun pair =>
    (pair.1.id, normalizeCapturedValue pair.2 (pair.1.declaredType.affinityFor created.mode))⟩
  rules.checkRowid created captured.rowid row
  require (¬ (created.mode = .strict ∧ ∃ column ∈ created.columns,
      (row.value column.id).any (fun value => !strictValueMatches column value) = true))
    (.capture "row value has an invalid STRICT storage class")
  let _ ← orImage "primary key" (rules.keyImages row)
  let _ ← orImage "UNIQUE key" (rules.indexEntries row)
  let _ ← orImage "foreign-key" (rules.foreignReferences row)
  .ok row

/-! ## Statements -/

/-- `CapturedChange`. -/
inductive CapturedChange where
  | insert (row : CapturedRow)
  | delete (row : CapturedRow)
  | update (before after : CapturedRow)

/-- The rules of an image: the expected ones, or those of its table. -/
def imageRules (catalog : CatalogSnapshot) (created : CreateTable) :
    Option RowRules → Except FoldFault RowRules
  | none => RowRules.fromTable catalog created
  | some rules => do
    require (rules.table = created.tableId)
      (.capture "one row statement changed more than one synchronized table")
    .ok rules

/-- `captured_image`. -/
def capturedImage (catalog : CatalogSnapshot) (statement : String) (captured : CapturedRow)
    (expected : Option RowRules) : Except FoldFault (RowRules × Row) := do
  let created ← orFault (.missingIdentity statement) (catalog.byName captured.table)
  let rules ← imageRules catalog created expected
  let row ← rules.capture created captured
  let _ ← TableChangesBuilder.orCodec (rules.rowKey row)
  .ok (rules, row)

/-- The images of a change.  An updated row keeps the rules of its before-image, so that the
comparison of the two cannot fail. -/
def CapturedChange.images (catalog : CatalogSnapshot) :
    CapturedChange → Except FoldFault (RowRules × RowEvent)
  | insert row => do
    let (rules, row) ← capturedImage catalog "INSERT" row none
    .ok (rules, .insert row)
  | delete row => do
    let (rules, row) ← capturedImage catalog "DELETE" row none
    .ok (rules, .delete row)
  | update before after => do
    let (rules, before) ← capturedImage catalog "UPDATE" before none
    let (_, after) ← capturedImage catalog "UPDATE" after (some rules)
    .ok (rules, .update before after)

/-- `table_builder`. -/
def tableBuilder (builders : OrdMap TableId TableChangesBuilder) (rules : RowRules) :
    Except FoldFault TableChangesBuilder :=
  match builders.get rules.table with
  | some builder => do
    require (builder.rules = rules) .inconsistentRules
    .ok builder
  | none => .ok (.new rules)

/-- One round of `from_catalog`. -/
def foldChange (catalog : CatalogSnapshot) (builders : OrdMap TableId TableChangesBuilder)
    (change : CapturedChange) : Except FoldFault (OrdMap TableId TableChangesBuilder) := do
  let (rules, event) ← change.images catalog
  let builder ← tableBuilder builders rules
  let builder ← builder.event event
  .ok (builders.insert rules.table builder)

/-- What folding is refused with. -/
def orRefused {α : Type} : Except RowError α → Except FoldFault α
  | .ok a => .ok a
  | .error error => .error (.refused error)

/-- `RowChanges::from_catalog`. -/
def RowChanges.fromCatalog (catalog : CatalogSnapshot) (events : List CapturedChange) :
    Except FoldFault (Option RowChanges) := do
  let builders ← events.foldlM (foldChange catalog) OrdMap.empty
  let tables : RowChanges := (builders.values.map fun builder =>
    ⟨builder.rules, builder.retained⟩).filter fun table => table.rows ≠ []
  if tables = [] then .ok none
  else
    orRefused (orInvalidOp (validateStructure tables))
    orRefused (validateBudget (fun rules => rules.encode.length) tables)
    .ok (some tables)

end Homebase.Multilite
