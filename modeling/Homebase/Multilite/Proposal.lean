import Homebase.Client.Space
import Homebase.Multilite.History

set_option autoImplicit false

/-!
# Multilite: commit proposals (`commit/proposal.rs`, `commit/footprint.rs`)

A proposal asks the committer for one canonical transition: a local transaction, or one
of the four transitions of the submit and admit logs.

The logical operations of a transaction act on the SQL state of the database.  What they
do to it, and how they and proposals are written as bytes, stays a parameter (`Logical`):
the committer only passes it on.
-/

namespace Homebase.Multilite

open Foundation Homebase.Core
open Client (OplogCursors AdmitCursors)

/-! ## Conflict footprints -/

/-- `IsolationLevel`. -/
inductive IsolationLevel where
  | snapshot
  | serializable
  deriving DecidableEq

/-- `PrefixAntichain`. -/
abbrev PrefixAntichain : Type := OrdSet Key

namespace PrefixAntichain

/-- The last key that is not after `key`: `range(..=&key).next_back()`. -/
def lastUpTo (keys : PrefixAntichain) (key : Key) : Option Key :=
  (keys.toList.filter fun k => decide (k ≤ key)).getLast?

/-- `PrefixAntichain::insert`. -/
def insertKey (keys : PrefixAntichain) (key : Key) : PrefixAntichain :=
  if (keys.lastUpTo key).any (fun covering => key.startsWith covering) then keys
  else
    let descendants := ((OrdMap.range keys key none).map Prod.fst).takeWhile
      fun candidate => candidate.startsWith key
    OrdMap.insert (descendants.foldl OrdMap.erase keys) key ()

/-- `PrefixAntichain::extend`. -/
def extendKeys (keys other : PrefixAntichain) : PrefixAntichain :=
  other.toList.foldl insertKey keys

end PrefixAntichain

/-- `ConflictFootprint`. -/
structure ConflictFootprint where
  writes : PrefixAntichain
  constraints : PrefixAntichain
  reads : PrefixAntichain

/-- `GuardClass`. -/
inductive GuardClass where
  | invariant
  | write
  | serializableRead
  deriving DecidableEq

/-- `Guard`, as far as a footprint is made of it. -/
structure Guard where
  target : Key
  guardClass : GuardClass
  deriving DecidableEq

namespace ConflictFootprint

/-- `ConflictFootprint::new`. -/
def new : ConflictFootprint := ⟨OrdMap.empty, OrdMap.empty, OrdMap.empty⟩

/-- `add_constraint`, `add_write` and `add_read`, by the class of a guard: one step of
`GuardPlan::footprint`. -/
def addGuard (footprint : ConflictFootprint) (guard : Guard) : ConflictFootprint :=
  match guard.guardClass with
  | .invariant => { footprint with constraints := footprint.constraints.insertKey guard.target }
  | .write => { footprint with writes := footprint.writes.insertKey guard.target }
  | .serializableRead => { footprint with reads := footprint.reads.insertKey guard.target }

/-- `GuardPlan::footprint`. -/
def ofGuards (guards : List Guard) : ConflictFootprint := guards.foldl addGuard new

/-- `ConflictFootprint::extend`. -/
def extend (footprint other : ConflictFootprint) : ConflictFootprint where
  writes := footprint.writes.extendKeys other.writes
  constraints := footprint.constraints.extendKeys other.constraints
  reads := footprint.reads.extendKeys other.reads

/-- `ConflictFootprint::asserted_keys`. -/
def assertedKeys (footprint : ConflictFootprint) (isolation : IsolationLevel) : List Key :=
  footprint.writes.toList ++ footprint.constraints.toList ++
    match isolation with
    | .serializable => footprint.reads.toList
    | .snapshot => []

/-- `ConflictFootprint::conflicts_with_writes`. -/
def conflictsWithWrites (footprint : ConflictFootprint) (isolation : IsolationLevel)
    (committed : List WriteRegion) : Bool :=
  (footprint.assertedKeys isolation).any fun asserted =>
    committed.any fun written => written.overlapsPrefix asserted

theorem conflictsWithWrites_iff {footprint : ConflictFootprint} {isolation : IsolationLevel}
    {committed : List WriteRegion} :
    footprint.conflictsWithWrites isolation committed = true ↔
      ∃ asserted ∈ footprint.assertedKeys isolation, ∃ written ∈ committed,
        written.overlapsPrefix asserted = true := by
  simp [ConflictFootprint.conflictsWithWrites]

/-- The antichain `plan` merges. -/
def selected (footprint : ConflictFootprint) (isolation : IsolationLevel) : PrefixAntichain :=
  let merged := footprint.writes.extendKeys footprint.constraints
  match isolation with
  | .serializable => merged.extendKeys footprint.reads
  | .snapshot => merged

/-- `ConflictFootprint::plan`. -/
def plan (footprint : ConflictFootprint) (isolation : IsolationLevel) (upto : AdmissionSeq) :
    List RangeAssert :=
  (footprint.selected isolation).toList.map fun key => ⟨key, upto⟩

end ConflictFootprint

/-! ## Logical transactions -/

/-- `RepairKind`. -/
inductive RepairKind where
  | dropColumn
  | dropTable
  deriving DecidableEq

/-- `RepairId`. -/
abbrev RepairId : Type := ByteArr 16

/-- `RepairSpec`. -/
structure RepairSpec where
  id : RepairId
  kind : RepairKind
  keyParts : Nat
  valueParts : Nat
  deriving DecidableEq

/-- What a repair job retains: the rows and the catalog state that were destroyed. -/
structure Sidecar where
  rows : List (Bytes × Bytes)
  state : Bytes
  deriving DecidableEq

/-- `MultiliteTransaction`. -/
structure Transaction (Op : Type) where
  id : ByteArr 16
  operations : List Op
  deriving DecidableEq

/-- `CompiledTransaction`: the transaction, its lowering and its inverse. -/
structure CompiledTransaction (Op : Type) where
  logical : Transaction Op
  mutations : List (Mutation Bytes)
  guards : List Guard
  rejection : List Op

/-- `HomebaseTransaction::footprint`. -/
def CompiledTransaction.footprint {Op : Type} (compiled : CompiledTransaction Op) :
    ConflictFootprint :=
  ConflictFootprint.ofGuards compiled.guards

/-- An error of SQLite or of a logical operation. -/
inductive LogicalError where
  | constraintViolation
  | failed (reason : Nat)
  deriving DecidableEq

/-! ## Proposals -/

/-- `SnapshotDescriptor`. -/
structure SnapshotDescriptor where
  commitSeq : CommitSeq
  authorityAppliedThrough : AdmissionSeq
  submitCursors : OplogCursors
  deriving DecidableEq

/-- `TransactionProposal`. -/
structure TransactionProposal (Op : Type) where
  snapshot : SnapshotDescriptor
  isolation : IsolationLevel
  compiled : CompiledTransaction Op
  footprint : ConflictFootprint

/-- `ApplyAdmissionsProposal`. -/
structure ApplyAdmissionsProposal (Op : Type) where
  expectedSubmit : OplogCursors
  expectedAdmits : AdmitCursors
  through : AdmissionSeq
  localDevice : DeviceId
  transactions : List (DeviceId × Transaction Op)

/-- `RejectSubmissionsProposal`. -/
structure RejectSubmissionsProposal where
  failedAt : DeviceSeq
  expectedSubmit : OplogCursors

/-- `AcceptSubmissionsProposal`. -/
structure AcceptSubmissionsProposal where
  expectedSubmit : OplogCursors
  through : DeviceSeq
  checksum : DeviceChecksum

/-- `AppendAdmissionsProposal`. -/
structure AppendAdmissionsProposal where
  expectedAdmits : AdmitCursors
  response : PullResponse

/-- `ProposalBody`. -/
inductive ProposalBody (Op : Type) where
  | transaction (proposal : TransactionProposal Op)
  | applyAdmissions (proposal : ApplyAdmissionsProposal Op)
  | rejectSubmissions (proposal : RejectSubmissionsProposal)
  | acceptSubmissions (proposal : AcceptSubmissionsProposal)
  | appendAdmissions (proposal : AppendAdmissionsProposal)

/-- `CommitProposal`. -/
structure CommitProposal (Op : Type) where
  id : ProposalId
  body : ProposalBody Op

/-! ## Errors -/

/-- The texts of `Error::InvalidCommitProposal`. -/
inductive ProposalFault where
  /-- "one proposal id names different commit payloads" -/
  | differentPayloads
  /-- "proposal id is already committed with another payload" -/
  | anotherPayload
  /-- "typed footprint contradicts the logical transaction" -/
  | footprint
  /-- "admission apply frontier is outside the captured window" -/
  | applyFrontier
  /-- "rejected sequence does not identify the active submit head" -/
  | rejectedHead
  /-- "acknowledged sequence is outside the active submit window" -/
  | acknowledged
  /-- A page that is not dense. -/
  | density (error : PullDensityError)
  /-- "pull response does not begin at the expected admit tail" -/
  | pullStart
  /-- "commit group contains a duplicate proposal id" -/
  | duplicateId
  /-- "commit proposal id is not a UUID v4" -/
  | notUuid
  deriving DecidableEq

/-- The texts of `Error::CommitConflict`. -/
inductive Conflict where
  /-- "proposal snapshot is newer than canonical SQLite" -/
  | newerSnapshot
  /-- "proposal conflicts with local commit sequence .." -/
  | committed (commitSeq : CommitSeq)
  /-- "proposal conflicts with an earlier proposal in its commit group" -/
  | group
  /-- The text of the constraint that a replay violated. -/
  | replay
  /-- "submit window changed before acknowledgement" -/
  | submitWindow
  /-- "admit window changed before pull capture" -/
  | admitWindow
  /-- "local commit sequence is exhausted" -/
  | exhausted
  deriving DecidableEq

/-- The texts of `Error::InvalidDatabase`. -/
inductive DatabaseFault where
  /-- "submit tail cannot be zero" -/
  | zeroSubmitTail
  /-- "admit tail cannot be zero" -/
  | zeroAdmitTail
  /-- "pending transactions do not match the active submit window" -/
  | pendingMismatch
  /-- "pending destructive operation has no repair sidecar" -/
  | missingSidecar
  /-- "repair sidecars do not match pending destructive operations" -/
  | sidecarMismatch
  deriving DecidableEq

/-- The texts of `Error::CaptureInvariant`. -/
inductive CaptureFault where
  /-- "destructive operation was journaled without its repair sidecar" -/
  | unrepairedJournal
  /-- "cannot finalize an empty commit group" -/
  | emptyGroup
  /-- "canonical commit writes are not sorted and unique" -/
  | unsortedWrites
  deriving DecidableEq

/-- `Error`, as far as the committer returns it. -/
inductive CommitError where
  | invalidCommitProposal (fault : ProposalFault)
  | commitConflict (conflict : Conflict)
  | rebaseStateChanged
  | rebasePendingSubmissions
  | stalePushRejection
  | invalidDatabase (fault : DatabaseFault)
  | captureInvariant (fault : CaptureFault)
  /-- "transaction reuses a destructive repair identity" -/
  | invalidTransaction
  | logical (error : LogicalError)
  | client (fault : Client.Fault)
  /-- "commit group panicked" -/
  | panicked
  /-- A failure of the surroundings, such as I/O. -/
  | surroundings (code : Nat)
  deriving DecidableEq

/-- A fault while a group is recorded. -/
def RecordFault.toError : RecordFault → CommitError
  | .emptyGroup => .captureInvariant .emptyGroup
  | .duplicateId _ => .invalidCommitProposal .duplicateId
  | .notUuid _ => .invalidCommitProposal .notUuid
  | .unsortedWrites => .captureInvariant .unsortedWrites
  | .exhausted => .commitConflict .exhausted
  | .committedId _ => .logical .constraintViolation

/-- `classify_replay_error`. -/
def classifyReplayError : CommitError → CommitError
  | .logical .constraintViolation => .commitConflict .replay
  | error => error

/-! ## Validation that needs no state -/

/-- `TransactionProposal::validate_mandatory_footprint`. -/
def TransactionProposal.validateMandatoryFootprint {Op : Type} (proposal : TransactionProposal Op)
    (mandatory : ConflictFootprint) : Except CommitError Unit :=
  if proposal.footprint.writes.toList = mandatory.writes.toList ∧
      proposal.footprint.constraints.toList = mandatory.constraints.toList then .ok ()
  else .error (.invalidCommitProposal .footprint)

/-- `CommitProposal::validate`. -/
def ProposalBody.validate {Op : Type} : ProposalBody Op → Except CommitError Unit
  | .transaction proposal => proposal.validateMandatoryFootprint proposal.compiled.footprint
  | .applyAdmissions proposal =>
      if proposal.through < proposal.expectedAdmits.neck ∨
          proposal.expectedAdmits.tail < proposal.through then
        .error (.invalidCommitProposal .applyFrontier)
      else .ok ()
  | .rejectSubmissions proposal =>
      if proposal.failedAt ≠ proposal.expectedSubmit.neck ∨
          proposal.expectedSubmit.tail ≤ proposal.failedAt then
        .error (.invalidCommitProposal .rejectedHead)
      else .ok ()
  | .acceptSubmissions proposal =>
      if proposal.through < proposal.expectedSubmit.neck ∨
          proposal.expectedSubmit.tail ≤ proposal.through then
        .error (.invalidCommitProposal .acknowledged)
      else .ok ()
  | .appendAdmissions proposal =>
      match proposal.response.validateDense with
      | .error error => .error (.invalidCommitProposal (.density error))
      | .ok () =>
          match U64.checkedSub proposal.expectedAdmits.tail 1 with
          | none => .error (.invalidDatabase .zeroAdmitTail)
          | some expectedAfter =>
              if proposal.response.after ≠ expectedAfter then
                .error (.invalidCommitProposal .pullStart)
              else .ok ()

/-! ## What the operations do -/

/-- The logical operations and the encodings of transactions and proposals. -/
structure Logical (Data Op : Type) where
  /-- `MultiliteOp::to_homebase`. -/
  toHomebase : Op → Except LogicalError (List (Mutation Bytes) × List Guard)
  /-- `MultiliteTransaction::encode`. -/
  encode : Transaction Op → Except LogicalError Bytes
  /-- `transaction_key`. -/
  transactionKey : ByteArr 16 → Key
  /-- `MultiliteOp::repair_spec`: only the destructive operations have one. -/
  repairSpec : Op → Option RepairSpec
  /-- What `capture_local_repair` reads for a destructive operation. -/
  captureRepair : Op → Data → Except LogicalError Sidecar
  /-- `MultiliteOp::apply`. -/
  apply : Op → Data → Except LogicalError Data
  /-- The inverse of an operation, with what its repair job retained. -/
  revert : Op → Option Sidecar → Data → Except LogicalError Data
  /-- `CommitProposal::encode`. -/
  encodeProposal : CommitProposal Op → Except LogicalError Bytes

section Logical

variable {Data Op : Type}

/-- An error of the logical layer, as the committer reports it. -/
def orLogical {α : Type} : Except LogicalError α → Except CommitError α
  | .ok a => .ok a
  | .error error => .error (.logical error)

/-- `MultiliteTransaction::compile`. -/
def Logical.compile (logical : Logical Data Op) (transaction : Transaction Op) :
    Except LogicalError (CompiledTransaction Op) := do
  let lowered ← transaction.operations.mapM logical.toHomebase
  let manifest ← logical.encode transaction
  .ok {
    logical := transaction
    mutations := .set (logical.transactionKey transaction.id) manifest ::
      lowered.flatMap Prod.fst
    guards := lowered.flatMap Prod.snd
    rejection := transaction.operations.reverse }

/-- `MultiliteTransaction::repair_specs`. -/
def Logical.repairSpecs (logical : Logical Data Op) (transaction : Transaction Op) :
    List RepairSpec :=
  transaction.operations.filterMap logical.repairSpec

end Logical

end Homebase.Multilite
