import Homebase.Multilite.Targets

set_option autoImplicit false

/-!
# Multilite: all logical targets (`logical/guard.rs`)

The targets of row changes are those of `LogicalTarget`; here are the others with them: names,
schemas, dependencies, logs, and the prefix targets, which name all targets below them.
-/

namespace Homebase.Multilite

open Foundation Homebase.Core

/-- `MutationId`. -/
abbrev MutationId : Type := ByteArr 16

/-! ## Names -/

/-- `SHORT_NAME_LIMIT`. -/
def shortNameLimit : Nat := 250

/-- `OBJECT_NAME_HASH_DOMAIN`. -/
def objectNameHashDomain : Bytes := ascii "multilite:table-name:v1" ++ [0]

/-- `name_component`. -/
def nameComponent (sha256 : Bytes → ByteArr 32) (canonical : Bytes) : Bytes :=
  if canonical.length ≤ shortNameLimit then ascii "name-" ++ canonical
  else ascii "hash-" ++ (sha256 (objectNameHashDomain ++ canonical)).bytes

/-- `codes::INDEXES`. -/
def Codes.indexes : Bytes := ascii "indexes"

/-! ## Targets -/

/-- `LogicalTarget`, with the targets of row changes as one case. -/
inductive Target where
  | schemaLog (mutation : MutationId)
  | schemaObjectName (canonical : Bytes)
  | tableSchema (table : TableId) (revision : SchemaRevisionId)
  | columnName (table : TableId) (canonical : Bytes)
  | constraintName (table : TableId) (canonical : Bytes)
  | activeConstraint (table : TableId) (identity : ByteArr 16)
  | constraintReferencePrefix (table : TableId) (identity : ByteArr 16)
  | constraintReference (table : TableId) (identity : ByteArr 16) (relationship : ForeignKeyId)
  | columnDependencyPrefix (table : TableId) (column : ColumnId)
  | columnIndexDependency (table : TableId) (column : ColumnId) (index : IndexId)
  | columnCheckDependency (table : TableId) (column owner : ColumnId)
  | columnViewDependency (table : TableId) (column : ColumnId) (canonical : Bytes)
  | tableRoot (table : TableId)
  | activeSchemaRevision (table : TableId)
  | indexDefinition (table : TableId) (index : IndexId)
  | rowPrefix (table : TableId)
  | transactionLog (transaction : ByteArr 16)
  | userVersion
  | viewDependencyPrefix (table : TableId)
  | viewDependency (table : TableId) (canonical : Bytes)
  | rowChange (target : LogicalTarget)
  deriving DecidableEq

/-- `LogicalTarget::family`, for row changes. -/
def LogicalTarget.family : LogicalTarget → TargetFamily
  | activePrimaryIndex _ => .activePrimaryIndex
  | writeRevision _ => .writeRevision
  | row _ _ _ => .row
  | uniqueOwner _ _ _ => .uniqueOwner
  | foreignReferencePrefix _ _ _ _ | foreignReference _ _ _ _ _ _ => .foreignReference

namespace Target

/-- `LogicalTarget::family`. -/
def family : Target → TargetFamily
  | schemaLog _ => .schemaLog
  | schemaObjectName _ => .schemaObjectName
  | tableSchema _ _ => .tableSchema
  | columnName _ _ => .columnName
  | constraintName _ _ => .constraintName
  | activeConstraint _ _ => .activeConstraint
  | constraintReferencePrefix _ _ | constraintReference _ _ _ => .constraintReference
  | columnDependencyPrefix _ _ | columnIndexDependency _ _ _ | columnCheckDependency _ _ _
  | columnViewDependency _ _ _ => .columnDependency
  | tableRoot _ => .tableRoot
  | activeSchemaRevision _ => .activeSchemaRevision
  | indexDefinition _ _ => .indexDefinition
  | rowPrefix _ => .tableRows
  | transactionLog _ => .transactionLog
  | userVersion => .userVersion
  | viewDependencyPrefix _ | viewDependency _ _ => .viewDependency
  | rowChange target => target.family

/-- A key below the root of a table. -/
@[simp] def under (table : TableId) (components : List Bytes) : List Bytes :=
  Codes.root :: Codes.tables :: table.bytes :: components

attribute [simp] valueTarget foreignReferenceComponents LogicalTarget.components

/-- The components of a target, with its names as `name` writes them. -/
@[simp] def components (name : Bytes → Bytes) : Target → List Bytes
  | schemaLog mutation => [Codes.root, Codes.schema, Codes.log, mutation.bytes]
  | schemaObjectName canonical =>
      [Codes.root, Codes.schema, Codes.names, Codes.main, name canonical]
  | tableSchema table revision => under table [Codes.schema, revision.bytes]
  | columnName table canonical => under table [Codes.names, Codes.columns, name canonical]
  | constraintName table canonical => under table [Codes.names, Codes.constraints, name canonical]
  | activeConstraint table identity => under table [Codes.activeConstraints, identity.bytes]
  | constraintReferencePrefix table identity =>
      under table [Codes.constraintReferences, identity.bytes]
  | constraintReference table identity relationship =>
      under table [Codes.constraintReferences, identity.bytes, relationship.bytes]
  | columnDependencyPrefix table column => under table [Codes.columnDependencies, column.bytes]
  | columnIndexDependency table column index =>
      under table [Codes.columnDependencies, column.bytes, Codes.indexes, index.bytes]
  | columnCheckDependency table column owner =>
      under table [Codes.columnDependencies, column.bytes, Codes.columns, owner.bytes]
  | columnViewDependency table column canonical =>
      under table [Codes.columnDependencies, column.bytes, Codes.viewDependencies, name canonical]
  | tableRoot table => under table []
  | activeSchemaRevision table => under table [Codes.activeSchemaRevision]
  | indexDefinition table index => under table [Codes.indexDefinitions, index.bytes]
  | rowPrefix table => under table [Codes.rows]
  | transactionLog transaction =>
      [Codes.root, Codes.transactions, Codes.log, transaction.bytes]
  | userVersion => [Codes.root, Codes.metadata, Codes.userVersion]
  | viewDependencyPrefix table => under table [Codes.viewDependencies]
  | viewDependency table canonical => under table [Codes.viewDependencies, name canonical]
  | rowChange target => target.components

/-- `LogicalTarget::render`. -/
def render (sha256 : Bytes → ByteArr 32) (target : Target) : Except KeyError Key :=
  keyFromBytes (target.components (nameComponent sha256))

/-- The prefix targets that name a target as one of their members. -/
def enclosing : Target → List Target
  | constraintReference table identity _ =>
      [tableRoot table, constraintReferencePrefix table identity]
  | columnIndexDependency table column _ | columnCheckDependency table column _
  | columnViewDependency table column _ =>
      [tableRoot table, columnDependencyPrefix table column]
  | viewDependency table _ => [tableRoot table, viewDependencyPrefix table]
  | rowChange (.row table _ _) => [tableRoot table, rowPrefix table]
  | rowChange (.foreignReference parent relationship parentIndex parentImages _ _) =>
      [tableRoot parent,
        rowChange (.foreignReferencePrefix parent relationship parentIndex parentImages)]
  | tableSchema table _ | columnName table _ | constraintName table _ | activeConstraint table _
  | constraintReferencePrefix table _ | columnDependencyPrefix table _ | activeSchemaRevision table
  | indexDefinition table _ | rowPrefix table | viewDependencyPrefix table
  | rowChange (.activePrimaryIndex table) | rowChange (.writeRevision table)
  | rowChange (.uniqueOwner table _ _) | rowChange (.foreignReferencePrefix table _ _ _) =>
      [tableRoot table]
  | schemaLog _ | schemaObjectName _ | tableRoot _ | transactionLog _ | userVersion => []

end Target

end Homebase.Multilite
