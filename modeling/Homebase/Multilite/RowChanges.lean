import Homebase.Multilite.Rows

set_option autoImplicit false

/-!
# Multilite: row changes and their lowering (`logical/row.rs`)

`to_homebase` turns the net row changes of a statement into mutations of the cells and
guards on them, table by table in the order of their ids.
-/

namespace Homebase.Multilite

open Foundation Homebase.Core

/-- `RowDelta`. -/
structure RowDelta where
  before : Option Row
  after : Option Row
  deriving DecidableEq

/-- `TableChanges`. -/
structure TableChanges where
  rules : RowRules
  rows : List RowDelta
  deriving DecidableEq

/-- `RowChanges`: the tables in the order of their ids. -/
abbrev RowChanges : Type := List TableChanges

/-- `RowHomebaseOp`. -/
structure RowHomebaseOp where
  mutations : List (Mutation Bytes)
  guards : GuardPlan
  deriving DecidableEq

/-- What `to_homebase` fails with. -/
inductive RowError where
  /-- `CaptureLimitExceeded`, with the name of the resource and its limit -/
  | captureLimit (resource : String) (limit : Nat)
  /-- `InvalidMultiliteOp`, with the text of the error -/
  | invalidMultiliteOp (error : RowCodecError)
  /-- `CaptureInvariant` -/
  | captureInvariant (fault : GuardFault)
  deriving DecidableEq

/-- A codec error. -/
def orInvalidOp {α : Type} : Except RowCodecError α → Except RowError α
  | .ok a => .ok a
  | .error error => .error (.invalidMultiliteOp error)

/-- A refused guard. -/
def orCaptureInvariant {α : Type} : Except GuardFault α → Except RowError α
  | .ok a => .ok a
  | .error fault => .error (.captureInvariant fault)

namespace TableChanges

/-- `before_rows`; no rows stand for `None`. -/
def beforeRows (table : TableChanges) : List Row := table.rows.filterMap RowDelta.before

/-- `after_rows`; no rows stand for `None`. -/
def afterRows (table : TableChanges) : List Row := table.rows.filterMap RowDelta.after

end TableChanges

/-! ## Budgets -/

/-- `MAX_CAPTURED_CHANGES`. -/
def maxCapturedChanges : Nat := 100000
/-- `MAX_ROW_OPERATION_BYTES`. -/
def maxRowOperationBytes : Nat := 64 * 1024 * 1024

/-- `field_len`. -/
def fieldLen (payload : Nat) : Except RowCodecError Nat :=
  if payload < 2 ^ 32 then .ok (payload + 5) else .error .invalidLength

/-- `row_image_len`. -/
def rowImageLen (row : Row) : Except RowCodecError Nat :=
  row.values.foldlM (fun bytes pair => do
    let column ← fieldLen 16
    let value ← fieldLen pair.2.encodedLen
    let columnValue ← fieldLen (column + value)
    .ok (bytes + columnValue)) 1

/-- `RowDelta::encoded_len`. -/
def RowDelta.encodedLen (delta : RowDelta) : Except RowCodecError Nat :=
  (delta.before.toList ++ delta.after.toList).foldlM (fun bytes row => do
    let image ← rowImageLen row
    let image ← fieldLen image
    .ok (bytes + image)) 1

/-- `TableChanges::encoded_len`, given how long the encoded rules are. -/
def TableChanges.encodedLen (rulesLen : RowRules → Nat) (table : TableChanges) :
    Except RowCodecError Nat := do
  let rules ← fieldLen (rulesLen table.rules)
  table.rows.foldlM (fun bytes delta => do
    let row ← delta.encodedLen
    let row ← fieldLen row
    .ok (bytes + row)) (1 + rules)

/-- `validate_budget`. -/
def validateBudget (rulesLen : RowRules → Nat) (changes : RowChanges) : Except RowError Unit :=
  if maxCapturedChanges < (changes.map fun table => table.rows.length).sum then
    .error (.captureLimit "normalized row-change count" maxCapturedChanges)
  else
    match changes.foldlM (fun bytes table => do
        let encoded ← table.encodedLen rulesLen
        let encoded ← fieldLen encoded
        .ok (bytes + encoded)) 1 with
    | .error _ => .error (.captureLimit "row-operation bytes" maxRowOperationBytes)
    | .ok bytes =>
        if maxRowOperationBytes < bytes then
          .error (.captureLimit "row-operation bytes" maxRowOperationBytes)
        else .ok ()

/-! ## Structure -/

/-- A condition that must hold. -/
def require {ε : Type} (condition : Prop) [Decidable condition] (error : ε) : Except ε Unit :=
  if condition then .ok () else .error error

/-- `RowRules::validate`. -/
def RowRules.validate (rules : RowRules) : Except RowCodecError Unit := do
  require (rules.keyParts ≠ []) .invalidRow
  require ((rules.keyParts.map KeyPartRules.column).Nodup ∧
    ((rules.keyParts.any KeyPartRules.rowidAlias) = true →
      rules.keyParts.map (fun part => (part.affinity, part.rowidAlias)) = [(.integer, true)]))
    .duplicateField
  require ((rules.indexes.map IndexRules.index).Nodup ∧
    ∀ index ∈ rules.indexes, index.parts ≠ [] ∧ (index.parts.map KeyPartRules.column).Nodup ∧
      ∀ part ∈ index.parts, part.rowidAlias = false) .invalidRow
  require ((rules.foreignKeys.map ForeignKeyRules.id).Nodup ∧
    (∀ foreignKey ∈ rules.foreignKeys, foreignKey.keyParts ≠ [] ∧
      (foreignKey.keyParts.map ForeignKeyPartRules.childColumn).Nodup) ∧
    (rules.incomingForeignKeys.map IncomingForeignKeyRules.id).Nodup ∧
    ∀ incoming ∈ rules.incomingForeignKeys, incoming.parentKeyParts ≠ [] ∧
      (incoming.parentKeyParts.map KeyPartRules.column).Nodup) .invalidRow

/-- One row of `RowSet::validate_structure`: its key and its unique keys are new. -/
def validateRow (rules : RowRules) (seen : OrdSet Key × OrdSet Key) (row : Row) :
    Except RowCodecError (OrdSet Key × OrdSet Key) := do
  let key ← rules.rowKey row
  require (seen.1.get key = none) .duplicateRow
  let entries ← rules.indexEntries row
  let indexes ← entries.foldlM (fun indexes entry => do
    require (OrdMap.get indexes entry.1 = none) .duplicateUniqueKey
    .ok (OrdMap.insert indexes entry.1 ())) seen.2
  let _ ← rules.foreignReferences row
  .ok (seen.1.insert key (), indexes)

/-- `RowSet::validate_structure`. -/
def validateRows (rules : RowRules) (rows : List Row) : Except RowCodecError Unit := do
  rules.validate
  match rows with
  | [] => .error .invalidRow
  | first :: _ =>
      require (∀ row ∈ rows, row.values.map Prod.fst = first.values.map Prod.fst) .invalidRow
      let _ ← rows.foldlM (validateRow rules) (OrdMap.empty, OrdMap.empty)
      .ok ()

/-- `TableChanges::validate_structure`. -/
def TableChanges.validateStructure (table : TableChanges) : Except RowCodecError Unit := do
  table.rules.validate
  require (table.rows ≠ [] ∧ ∀ delta ∈ table.rows,
    ¬ (delta.before = none ∧ delta.after = none) ∧ delta.before ≠ delta.after) .invalidRow
  if table.beforeRows ≠ [] then validateRows table.rules table.beforeRows else .ok ()
  if table.afterRows ≠ [] then validateRows table.rules table.afterRows else .ok ()

/-- `CanonicalTableChanges::validate`. -/
def validateStructure (changes : RowChanges) : Except RowCodecError Unit := do
  require (changes ≠ [] ∧ (changes.map fun table => table.rules.table).Pairwise (· < ·)) .invalidRow
  changes.forM TableChanges.validateStructure

/-! ## Maps of cells -/

/-- The loop of `index_entry_map` and `foreign_reference_map`: the entries of all rows, none
of them twice. -/
def entryMap (entries : Row → Except RowCodecError (List (Key × Bytes))) (duplicate : RowCodecError)
    (rows : List Row) : Except RowCodecError (OrdMap Key Bytes) :=
  rows.foldlM (fun map row => do
    let pushed ← entries row
    pushed.foldlM (fun (map : OrdMap Key Bytes) entry => do
      require (map.get entry.1 = none) duplicate
      .ok (map.insert entry.1 entry.2)) map) OrdMap.empty

/-- `index_entry_map`. -/
def indexEntryMap (rules : RowRules) (rows : List Row) : Except RowCodecError (OrdMap Key Bytes) :=
  entryMap rules.indexEntries .duplicateUniqueKey rows

/-- `foreign_reference_map`. -/
def foreignReferenceMap (rules : RowRules) (rows : List Row) :
    Except RowCodecError (OrdMap Key Bytes) :=
  entryMap rules.foreignReferences .invalidRow rows

/-- `incoming_reference_prefix_set`. -/
def incomingReferencePrefixSet (rules : RowRules) (rows : List Row) :
    Except RowCodecError (OrdSet Key) :=
  rows.foldlM (fun set row => do
    let targets ← rules.incomingReferencePrefixes row
    .ok (OrdSet.extend set targets)) OrdMap.empty

/-! ## Lowering -/

/-- The mutations and guards so far. -/
abbrev Lowering : Type := RowHomebaseOp

namespace Lowering

/-- `mutations.push(..)`. -/
def push (l : Lowering) (mutation : Mutation Bytes) : Lowering :=
  { l with mutations := l.mutations ++ [mutation] }

/-- `guards.write(..)?`. -/
def write (l : Lowering) (target : Key) (reason : GuardReason) : Except RowError Lowering := do
  let guards ← orCaptureInvariant (l.guards.write target reason)
  .ok { l with guards := guards }

/-- `guards.invariant(..)?`. -/
def invariant (l : Lowering) (target : Key) (reason : GuardReason) : Except RowError Lowering := do
  let guards ← orCaptureInvariant (l.guards.invariant target reason)
  .ok { l with guards := guards }

/-- A cell that is set: both guards, then the mutation. -/
def publish (l : Lowering) (key : Key) (reason : GuardReason) (mutation : Mutation Bytes) :
    Except RowError Lowering := do
  let l ← l.invariant key reason
  let l ← l.write key reason
  .ok (l.push mutation)

end Lowering

/-- The first loop of `lower`: every source that moves is retired. -/
def retireRow (l : Lowering) (keys : Option Key × Option Key) : Except RowError Lowering :=
  match keys.1 with
  | none => .ok l
  | some key => do
      let l ← l.write key .rowIdentity
      .ok (if keys.2 ≠ some key then l.push (.delete key) else l)

/-- The second loop of `lower`: every destination is published. -/
def publishRow (rules : RowRules) (l : Lowering) (change : RowDelta × (Option Key × Option Key)) :
    Except RowError Lowering :=
  match change.1.after, change.2.2 with
  | some row, some key => l.publish key .rowIdentity (.set key (rules.encodeRow row))
  | some _, none => .ok l
  | none, _ => .ok l

/-- `lower_map_delta`. -/
def lowerMapDelta (before after : OrdMap Key Bytes) (reason : GuardReason) (l : Lowering) :
    Except RowError Lowering := do
  let l ← before.entries.foldlM (fun (l : Lowering) entry =>
    if after.get entry.1 ≠ some entry.2 then do
      let l ← l.write entry.1 reason
      .ok (l.push (.delete entry.1))
    else .ok l) l
  after.entries.foldlM (fun (l : Lowering) entry =>
    if before.get entry.1 ≠ some entry.2 then l.publish entry.1 reason (.set entry.1 entry.2)
    else .ok l) l

/-- The third loop of `lower`: the ranges of referenced keys that are gone. -/
def retireReferenced (before after : OrdSet Key) (l : Lowering) : Except RowError Lowering :=
  (before.toList.filter fun target => (after.get target).isNone).foldlM (fun l target =>
    l.publish target .foreignChildren (.deleteRange (.prefixed target))) l

/-- The keys of a delta. -/
def RowDelta.keys (rules : RowRules) (delta : RowDelta) :
    Except RowCodecError (Option Key × Option Key) := do
  let before ← delta.before.mapM rules.rowKey
  let after ← delta.after.mapM rules.rowKey
  .ok (before, after)

/-- A key that is always short enough. -/
def orBounded {α : Type} : Except KeyError α → Except RowError α
  | .ok a => .ok a
  | .error error => .error (.invalidMultiliteOp (.invalidKey error))

/-- `TableChanges::lower`. -/
def TableChanges.lower (l : Lowering) (table : TableChanges) : Except RowError Lowering := do
  let beforeUnique ← orInvalidOp (indexEntryMap table.rules table.beforeRows)
  let afterUnique ← orInvalidOp (indexEntryMap table.rules table.afterRows)
  let beforeReferences ← orInvalidOp (foreignReferenceMap table.rules table.beforeRows)
  let afterReferences ← orInvalidOp (foreignReferenceMap table.rules table.afterRows)
  let rowKeys ← orInvalidOp (table.rows.mapM (RowDelta.keys table.rules))
  let l ← rowKeys.foldlM retireRow l
  let l ← (table.rows.zip rowKeys).foldlM (publishRow table.rules) l
  let l ← lowerMapDelta beforeUnique afterUnique .uniqueOwnership l
  let l ← lowerMapDelta beforeReferences afterReferences .foreignReference l
  let beforeIncoming ← orInvalidOp (incomingReferencePrefixSet table.rules table.beforeRows)
  let afterIncoming ← orInvalidOp (incomingReferencePrefixSet table.rules table.afterRows)
  let l ← retireReferenced beforeIncoming afterIncoming l
  let active ← orBounded (LogicalTarget.activePrimaryIndex table.rules.table).render
  let l ← l.invariant active .primaryIndex
  let revision ← orBounded (LogicalTarget.writeRevision table.rules.table).render
  l.invariant revision .writeContract

/-- `prune_redundant_point_deletes`. -/
def pruneRedundantPointDeletes (mutations : List (Mutation Bytes)) : List (Mutation Bytes) :=
  let deletedRanges := mutations.filterMap Mutation.range
  mutations.filter fun mutation => match mutation with
    | .delete key => !(deletedRanges.any fun range => range.coversKey key)
    | .set _ _ => true
    | .deleteRange _ => true

/-- `RowChanges::to_homebase`. -/
def toHomebase (rulesLen : RowRules → Nat) (changes : RowChanges) :
    Except RowError RowHomebaseOp := do
  validateBudget rulesLen changes
  orInvalidOp (validateStructure changes)
  let l ← changes.foldlM TableChanges.lower ⟨[], []⟩
  .ok ⟨pruneRedundantPointDeletes l.mutations, l.guards⟩

end Homebase.Multilite
