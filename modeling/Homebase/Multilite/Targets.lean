import Homebase.Multilite.Proposal

set_option autoImplicit false

/-!
# Multilite: logical targets and guards (`logical/guard.rs`, `logical/codes.rs`)

Every durable cell of a database has a key of a fixed layout.  A guard names such a key,
or a prefix of keys, that an operation depends on.  The targets and contracts here are
those of row changes; the key layout is classified as a whole.
-/

namespace Homebase.Multilite

open Foundation Homebase.Core

/-- `TableId`. -/
abbrev TableId : Type := ByteArr 16
/-- `IndexId`. -/
abbrev IndexId : Type := ByteArr 16
/-- `ColumnId`. -/
abbrev ColumnId : Type := ByteArr 16
/-- `ForeignKeyId`. -/
abbrev ForeignKeyId : Type := ByteArr 16
/-- `SchemaRevisionId`. -/
abbrev SchemaRevisionId : Type := ByteArr 16

/-! ## Labels -/

namespace Codes

/-- `ROOT`. -/
def root : Bytes := ascii "multilite"
/-- `SCHEMA`. -/
def schema : Bytes := ascii "schema"
/-- `LOG`. -/
def log : Bytes := ascii "log"
/-- `NAMES`. -/
def names : Bytes := ascii "names"
/-- `TABLES`. -/
def tables : Bytes := ascii "tables"
/-- `COLUMNS`. -/
def columns : Bytes := ascii "columns"
/-- `CONSTRAINTS`. -/
def constraints : Bytes := ascii "constraints"
/-- `ACTIVE_CONSTRAINTS`. -/
def activeConstraints : Bytes := ascii "active-constraints"
/-- `CONSTRAINT_REFERENCES`. -/
def constraintReferences : Bytes := ascii "constraint-references"
/-- `COLUMN_DEPENDENCIES`. -/
def columnDependencies : Bytes := ascii "column-dependencies"
/-- `MAIN`. -/
def main : Bytes := ascii "main"
/-- `ACTIVE_SCHEMA_REVISION`. -/
def activeSchemaRevision : Bytes := ascii "active-schema-revision"
/-- `ACTIVE_PRIMARY_INDEX`. -/
def activePrimaryIndex : Bytes := ascii "active-primary-index"
/-- `INDEX_DEFINITIONS`. -/
def indexDefinitions : Bytes := ascii "index-definitions"
/-- `ROWS`. -/
def rows : Bytes := ascii "rows"
/-- `UNIQUE`. -/
def unique : Bytes := ascii "unique"
/-- `FOREIGN_REFERENCES`. -/
def foreignReferences : Bytes := ascii "foreign-references"
/-- `WRITE_REVISION`. -/
def writeRevision : Bytes := ascii "write-revision"
/-- `TRANSACTIONS`. -/
def transactions : Bytes := ascii "transactions"
/-- `METADATA`. -/
def metadata : Bytes := ascii "metadata"
/-- `USER_VERSION`. -/
def userVersion : Bytes := ascii "user-version"
/-- `VIEW_DEPENDENCIES`. -/
def viewDependencies : Bytes := ascii "view-dependencies"

end Codes

/-! ## Families -/

/-- `TargetFamily`. -/
inductive TargetFamily where
  | schemaLog
  | schemaObjectName
  | tableSchema
  | columnName
  | constraintName
  | activeConstraint
  | constraintReference
  | columnDependency
  | tableRoot
  | activePrimaryIndex
  | activeSchemaRevision
  | indexDefinition
  | writeRevision
  | tableRows
  | row
  | uniqueOwner
  | foreignReference
  | transactionLog
  | userVersion
  | viewDependency
  deriving DecidableEq

namespace TargetFamily

/-- What stands below a table: the label, the component after it and the number of
components of the whole key. -/
def classifyTable (label : Bytes) (next : Option Bytes) (count : Nat) : Option TargetFamily :=
  if label = Codes.schema ∧ count = 5 then some tableSchema
  else if label = Codes.names ∧ next = some Codes.columns ∧ count = 6 then some columnName
  else if label = Codes.names ∧ next = some Codes.constraints ∧ count = 6 then some constraintName
  else if label = Codes.activeConstraints ∧ count = 5 then some activeConstraint
  else if label = Codes.constraintReferences ∧ (count = 5 ∨ count = 6) then
    some constraintReference
  else if label = Codes.columnDependencies ∧ 5 ≤ count then some columnDependency
  else if label = Codes.activePrimaryIndex ∧ count = 4 then some activePrimaryIndex
  else if label = Codes.activeSchemaRevision ∧ count = 4 then some activeSchemaRevision
  else if label = Codes.indexDefinitions ∧ count = 5 then some indexDefinition
  else if label = Codes.writeRevision ∧ count = 4 then some writeRevision
  else if label = Codes.viewDependencies ∧ (count = 4 ∨ count = 5) then some viewDependency
  else if label = Codes.rows ∧ count = 4 then some tableRows
  else if label = Codes.rows ∧ 5 ≤ count then some row
  else if label = Codes.unique ∧ 5 ≤ count then some uniqueOwner
  else if label = Codes.foreignReferences ∧ 6 ≤ count then some foreignReference
  else none

/-- `TargetFamily::classify`. -/
def classify (key : Key) : Option TargetFamily :=
  let parts := key.components.map KeyComponent.bytes
  let count := parts.length
  match parts with
  | first :: second :: rest =>
      if first ≠ Codes.root then none
      else if second = Codes.schema then
        if rest.head? = some Codes.log ∧ count = 4 then some schemaLog
        else if rest.head? = some Codes.names ∧ count = 5 ∧ rest.tail.head? = some Codes.main then
          some schemaObjectName
        else none
      else if second = Codes.tables then
        if count = 3 then some tableRoot
        else
          match rest.tail with
          | [] => none
          | label :: below => classifyTable label below.head? count
      else if second = Codes.transactions ∧ rest.head? = some Codes.log ∧ count = 4 then
        some transactionLog
      else if second = Codes.metadata ∧ rest.head? = some Codes.userVersion ∧ count = 3 then
        some userVersion
      else none
  | _ => none

end TargetFamily

/-! ## Targets -/

/-- `LogicalTarget`, as far as row changes use it. -/
inductive LogicalTarget where
  | activePrimaryIndex (table : TableId)
  | writeRevision (table : TableId)
  | row (table : TableId) (index : IndexId) (images : List Bytes)
  | uniqueOwner (table : TableId) (index : IndexId) (images : List Bytes)
  | foreignReferencePrefix (parent : TableId) (relationship : ForeignKeyId) (parentIndex : IndexId)
      (parentImages : List Bytes)
  | foreignReference (parent : TableId) (relationship : ForeignKeyId) (parentIndex : IndexId)
      (parentImages : List Bytes) (childIndex : IndexId) (childImages : List Bytes)
  deriving DecidableEq

/-- `value_target`. -/
def valueTarget (table : TableId) (label : Bytes) (index : IndexId) (images : List Bytes) :
    List Bytes :=
  [Codes.root, Codes.tables, table.bytes, label, index.bytes] ++ images

/-- `foreign_reference_prefix`. -/
def foreignReferenceComponents (parent : TableId) (relationship : ForeignKeyId)
    (parentIndex : IndexId) (parentImages : List Bytes) : List Bytes :=
  [Codes.root, Codes.tables, parent.bytes, Codes.foreignReferences, relationship.bytes,
    parentIndex.bytes] ++ parentImages

/-- `Key::from_bytes`. -/
def keyFromBytes (components : List Bytes) : Except KeyError Key := do
  let components ← components.mapM KeyComponent.new
  Key.new components

namespace LogicalTarget

/-- The components of a target. -/
def components : LogicalTarget → List Bytes
  | activePrimaryIndex table =>
      [Codes.root, Codes.tables, table.bytes, Codes.activePrimaryIndex]
  | writeRevision table => [Codes.root, Codes.tables, table.bytes, Codes.writeRevision]
  | row table index images => valueTarget table Codes.rows index images
  | uniqueOwner table index images => valueTarget table Codes.unique index images
  | foreignReferencePrefix parent relationship parentIndex parentImages =>
      foreignReferenceComponents parent relationship parentIndex parentImages
  | foreignReference parent relationship parentIndex parentImages childIndex childImages =>
      foreignReferenceComponents parent relationship parentIndex parentImages ++
        childIndex.bytes :: childImages

/-- `LogicalTarget::render`. -/
def render (target : LogicalTarget) : Except KeyError Key := keyFromBytes target.components

end LogicalTarget

/-! ## Guards -/

/-- `GuardReason`, as far as row changes give it. -/
inductive GuardReason where
  | writeContract
  | primaryIndex
  | rowIdentity
  | uniqueOwnership
  | foreignReference
  | foreignChildren
  deriving DecidableEq

/-- The part of `GUARD_CONTRACTS` for `OperationFamily::RowChanges`. -/
def rowChangesContracts : List (GuardClass × GuardReason × TargetFamily) :=
  [(.invariant, .rowIdentity, .row), (.write, .rowIdentity, .row),
    (.invariant, .uniqueOwnership, .uniqueOwner), (.write, .uniqueOwnership, .uniqueOwner),
    (.invariant, .foreignReference, .foreignReference),
    (.write, .foreignReference, .foreignReference),
    (.invariant, .foreignChildren, .foreignReference),
    (.write, .foreignChildren, .foreignReference),
    (.invariant, .primaryIndex, .activePrimaryIndex),
    (.invariant, .writeContract, .writeRevision)]

/-- `Guard`. -/
structure ReasonedGuard where
  target : Key
  family : TargetFamily
  guardClass : GuardClass
  reason : GuardReason
  deriving DecidableEq

/-- The guard without its reason. -/
def ReasonedGuard.guard (g : ReasonedGuard) : Guard := ⟨g.target, g.guardClass⟩

/-- The texts of `Error::CaptureInvariant` that a plan gives. -/
inductive GuardFault where
  /-- "guard target is outside the logical target registry" -/
  | outsideRegistry
  /-- "guard is absent from the operation contract" -/
  | absentContract
  deriving DecidableEq

/-- `GuardPlan`, for row changes: its entries. -/
abbrev GuardPlan : Type := List ReasonedGuard

namespace GuardPlan

/-- `GuardPlan::insert`. -/
def insert (plan : GuardPlan) (target : Key) (guardClass : GuardClass) (reason : GuardReason) :
    Except GuardFault GuardPlan :=
  match TargetFamily.classify target with
  | none => .error .outsideRegistry
  | some family =>
      if (guardClass, reason, family) ∈ rowChangesContracts then
        .ok (plan ++ [⟨target, family, guardClass, reason⟩])
      else .error .absentContract

/-- `GuardPlan::invariant`. -/
def invariant (plan : GuardPlan) (target : Key) (reason : GuardReason) :
    Except GuardFault GuardPlan :=
  plan.insert target .invariant reason

/-- `GuardPlan::write`. -/
def write (plan : GuardPlan) (target : Key) (reason : GuardReason) : Except GuardFault GuardPlan :=
  plan.insert target .write reason

end GuardPlan

end Homebase.Multilite
