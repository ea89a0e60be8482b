import Homebase.Multilite.Proposal

set_option autoImplicit false

/-!
# Multilite: the canonical committer (`database/commit_backend.rs`, `database/pending.rs`)

The committer owns the canonical database.  It prepares the proposals of a group one
after the other, each in a savepoint of its own, records those that were prepared under
one new sequence number and prunes the commit log.

A savepoint makes a member that fails leave nothing behind, whatever it did before it
failed, so a member is a function that returns the state it leaves or an error.  A member
that panics takes its whole group with it.
-/

namespace Homebase.Multilite

open Foundation Homebase.Core
open Client (OplogCursors AdmitCursors SpaceRecords ValueNonce DeviceOp)

/-! ## Canonical state -/

/-- The canonical database: the SQL state, the repair sidecars, the pending journal, the
records of the Homebase client and the commit log. -/
structure Canonical (Data Op : Type) where
  data : Data
  jobs : OrdMap RepairId (RepairSpec × Sidecar)
  pending : OrdMap DeviceSeq (Transaction Op)
  records : SpaceRecords
  history : History

/-- A database nothing was committed to. -/
def Canonical.fresh {Data : Type} (Op : Type) (data : Data) : Canonical Data Op :=
  ⟨data, OrdMap.empty, OrdMap.empty, SpaceRecords.empty, History.empty⟩

/-- What the committer of one database is given. -/
structure Setup (Data Op : Type) where
  sha256 : Bytes → ByteArr 32
  logical : Logical Data Op
  crypto : Client.Crypto
  mode : Client.CipherMode
  device : DeviceId

/-- A failed transition of the client's store. -/
def orStore {α : Type} : Except Client.StoreFault α → Except CommitError α
  | .ok a => .ok a
  | .error fault => .error (.client fault.toFault)

/-- A fault of the Homebase client. -/
def orClient {α : Type} : Except Client.Fault α → Except CommitError α
  | .ok a => .ok a
  | .error fault => .error (.client fault)

/-! ## Receipts -/

/-- `CommitDisposition`. -/
inductive CommitDisposition where
  | applied
  | alreadyCommitted
  deriving DecidableEq

/-- `CommitReceipt`. -/
structure CommitReceipt where
  commitSeq : CommitSeq
  disposition : CommitDisposition
  submitted : Option DeviceSeq
  deriving DecidableEq

/-- `PrepareOutcome`, with the state a prepared member leaves. -/
inductive PrepareOutcome (Data Op : Type) where
  | prepared (commit : PreparedRecord) (state : Canonical Data Op)
  | alreadyCommitted (receipt : CommitReceipt)

section Prepare

variable {Data Op : Type} [DecidableEq Op] (setup : Setup Data Op)

/-- `proposal_hash`. -/
def Setup.proposalHash (encoded : Bytes) : ByteArr 32 := setup.sha256 encoded

/-- `committed_receipt`. -/
def committedReceipt (c : Canonical Data Op) (proposal : CommitProposal Op) :
    Except CommitError (Option CommitReceipt) :=
  match c.history.committed proposal.id with
  | none => .ok none
  | some stored => do
      let encoded ← orLogical (setup.logical.encodeProposal proposal)
      if stored.proposalHash ≠ setup.proposalHash encoded then
        .error (.invalidCommitProposal .anotherPayload)
      else .ok (some ⟨stored.commitSeq, .alreadyCommitted, stored.submitted⟩)

/-- `prepare_receipt`. -/
def prepareReceipt (proposal : CommitProposal Op) (writes : List WriteRegion) :
    Except CommitError PreparedRecord := do
  let encoded ← orLogical (setup.logical.encodeProposal proposal)
  .ok ⟨proposal.id, setup.proposalHash encoded, none, writes⟩

/-! ## Applying and reverting operations -/

/-- `capture_local_repair`. -/
def captureLocalRepair (c : Canonical Data Op) (op : Op) : Except CommitError (Canonical Data Op) :=
  match setup.logical.repairSpec op with
  | none => .ok c
  | some spec => do
      let sidecar ← orLogical (setup.logical.captureRepair op c.data)
      -- `mutation_id` is the primary key of the jobs.
      if (c.jobs.get spec.id).isSome then .error (.logical .constraintViolation)
      else .ok { c with jobs := c.jobs.insert spec.id (spec, sidecar) }

/-- `MultiliteOp::apply`. -/
def applyOperation (c : Canonical Data Op) (op : Op) : Except CommitError (Canonical Data Op) := do
  let data ← orLogical (setup.logical.apply op c.data)
  .ok { c with data := data }

/-- `MultiliteTransaction::apply`. -/
def applyTransaction (c : Canonical Data Op) (transaction : Transaction Op) :
    Except CommitError (Canonical Data Op) :=
  transaction.operations.foldlM (applyOperation setup) c

/-- One round of `apply_speculative`. -/
def applySpeculativeOperation (c : Canonical Data Op) (op : Op) :
    Except CommitError (Canonical Data Op) := do
  let c ← captureLocalRepair setup c op
  applyOperation setup c op

/-- `MultiliteTransaction::apply_speculative`. -/
def applySpeculative (c : Canonical Data Op) (transaction : Transaction Op) :
    Except CommitError (Canonical Data Op) :=
  transaction.operations.foldlM (applySpeculativeOperation setup) c

/-- `repair::retire`. -/
def retire (c : Canonical Data Op) (id : RepairId) : Except CommitError (Canonical Data Op) :=
  if (c.jobs.get id).isSome then .ok { c with jobs := c.jobs.erase id }
  else .error (.invalidDatabase .missingSidecar)

/-- One rejection effect: a destructive operation is restored from its repair job, which
is then retired. -/
def revertOperation (c : Canonical Data Op) (op : Op) : Except CommitError (Canonical Data Op) :=
  match setup.logical.repairSpec op with
  | none => do
      let data ← orLogical (setup.logical.revert op none c.data)
      .ok { c with data := data }
  | some spec =>
      match c.jobs.get spec.id with
      | none => .error (.invalidDatabase .missingSidecar)
      | some (stored, sidecar) =>
          if stored ≠ spec then .error (.invalidDatabase .missingSidecar)
          else do
            let data ← orLogical (setup.logical.revert op (some sidecar) c.data)
            retire { c with data := data } spec.id

/-! ## The pending journal -/

/-- `pending::insert`. -/
def pendingInsert (c : Canonical Data Op) (seq : DeviceSeq) (transaction : Transaction Op) :
    Except CommitError (Canonical Data Op) := do
  let specs := setup.logical.repairSpecs transaction
  if ¬ specs.Nodup then .error .invalidTransaction
  else if specs.any (fun spec => (c.jobs.get spec.id).isNone) then
    .error (.captureInvariant .unrepairedJournal)
  else
    let _ ← orLogical (setup.logical.encode transaction)
    if (c.pending.get seq).isSome then .error (.logical .constraintViolation)
    else .ok { c with pending := c.pending.insert seq transaction }

/-- `pending::accept_through`. -/
def acceptThrough (c : Canonical Data Op) (through : DeviceSeq) :
    Except CommitError (Canonical Data Op) := do
  let accepted := c.pending.entries.takeWhile fun row => decide (row.1 ≤ through)
  let ids := (accepted.flatMap fun row => setup.logical.repairSpecs row.2).map RepairSpec.id
  let c ← ids.foldlM retire c
  .ok { c with pending := c.pending.retain fun seq _ => decide (through < seq) }

/-- `RejectionRepair`. -/
structure RejectionRepair (Op : Type) where
  pending : List (DeviceSeq × Transaction Op)
  writes : List WriteRegion
  effects : List Op

/-- The sequences of the commits of a window. -/
def commitSeqs (active : List (DeviceSeq × DeviceOp)) : List DeviceSeq :=
  active.filterMap fun row => match row.2 with
    | .commit _ _ _ _ => some row.1
    | .rollback _ => none

/-- `prepare_rejection`. -/
def prepareRejection (c : Canonical Data Op) (active : List (DeviceSeq × DeviceOp)) :
    Except CommitError (Option (RejectionRepair Op)) := do
  let pending := c.pending.entries
  if pending.map Prod.fst ≠ commitSeqs active then .error (.invalidDatabase .pendingMismatch)
  else
    let compiled ← orLogical (pending.mapM fun row => setup.logical.compile row.2)
    let writes := compiled.flatMap fun transaction => writesFromMutations transaction.mutations
    if pending = [] then .ok none
    else .ok (some {
      pending := pending
      writes := OrdSet.toList (OrdSet.ofList writes)
      effects := compiled.reverse.flatMap CompiledTransaction.rejection })

/-- `repair::validate_expected` with no job expected. -/
def validateNoJobs (c : Canonical Data Op) : Except CommitError Unit :=
  if c.jobs.entries = [] then .ok () else .error (.invalidDatabase .sidecarMismatch)

/-- `RejectionRepair::apply`. -/
def RejectionRepair.apply (repair : RejectionRepair Op) (c : Canonical Data Op) :
    Except CommitError (Canonical Data Op) := do
  if c.pending.entries ≠ repair.pending then .error .stalePushRejection
  else
    let c ← repair.effects.foldlM (revertOperation setup) c
    validateNoJobs c
    .ok { c with pending := OrdMap.empty }

/-! ## Submitting -/

/-- `to_homebase`. -/
def TransactionProposal.toHomebase (proposal : TransactionProposal Op) :
    Except CommitError (List (Mutation Bytes) × List RangeAssert) := do
  proposal.validateMandatoryFootprint proposal.compiled.footprint
  .ok (proposal.compiled.mutations,
    proposal.footprint.plan proposal.isolation proposal.snapshot.authorityAppliedThrough)

/-- `prepare_unchecked` followed by `commit_prepared`, with the nonces that were drawn. -/
def submit (r : SpaceRecords) (nonces : List ValueNonce) (mutations : List (Mutation Bytes))
    (assertions : List RangeAssert) : Except Client.Fault (DeviceSeq × SpaceRecords) := do
  let encoded ← Client.orCipher
    (Client.encodeSubmission setup.crypto setup.mode mutations assertions)
  if nonces.length < encoded.1.length then .error .nonce
  else
    match r.reserveCommit encoded.1.length encoded.2 .unchecked with
    | .error fault => .error fault.toFault
    | .ok reserved =>
        let entries ← Client.orCipher (Client.sealEntries setup.crypto setup.mode setup.device
          reserved.seq encoded.1 reserved.versions nonces)
        match r.commit reserved entries with
        | .error fault => .error fault.toFault
        | .ok (committed, r) => .ok (committed.seq, r)

/-! ## Preparing one proposal -/

/-- The conflicts `prepare` looks for: committed rows first, then the group so far. -/
def checkConflicts (c : Canonical Data Op) (proposal : TransactionProposal Op)
    (accepted : List WriteRegion) : Except CommitError Unit :=
  match (c.history.historyAfter proposal.snapshot.commitSeq).find? fun row =>
      proposal.footprint.conflictsWithWrites proposal.isolation row.writes with
  | some row => .error (.commitConflict (.committed row.commitSeq))
  | none =>
      if proposal.footprint.conflictsWithWrites proposal.isolation accepted = true then
        .error (.commitConflict .group)
      else .ok ()

/-- The transaction branch of `prepare_commit_proposal`, without its receipt. -/
def prepareTransaction (c : Canonical Data Op) (proposal : CommitProposal Op)
    (body : TransactionProposal Op) (accepted : List WriteRegion) (nonces : List ValueNonce) :
    Except CommitError (PreparedRecord × Canonical Data Op) := do
  if c.history.current < body.snapshot.commitSeq then .error (.commitConflict .newerSnapshot)
  else
    proposal.body.validate
    checkConflicts c body accepted
    let c ← (applySpeculative setup c body.compiled.logical).mapError classifyReplayError
    let commit ← prepareReceipt setup proposal (writesFromMutations body.compiled.mutations)
    let (mutations, assertions) ← body.toHomebase
    let (seq, records) ← orClient (submit setup c.records nonces mutations assertions)
    let c ← pendingInsert setup { c with records := records } seq body.compiled.logical
    .ok ({ commit with submitted := some seq }, c)

/-- One admitted transaction of `ApplyAdmissions`: those of this device are there already. -/
def applyAdmitted (localDevice : DeviceId) (s : Canonical Data Op × OrdSet WriteRegion)
    (admitted : DeviceId × Transaction Op) :
    Except CommitError (Canonical Data Op × OrdSet WriteRegion) :=
  if admitted.1 = localDevice then .ok s
  else do
    let compiled ← orLogical (setup.logical.compile admitted.2)
    let c ← applyTransaction setup s.1 compiled.logical
    .ok (c, OrdSet.extend s.2 (writesFromMutations compiled.mutations))

/-- The `ApplyAdmissions` branch. -/
def prepareApply (c : Canonical Data Op) (proposal : CommitProposal Op)
    (body : ApplyAdmissionsProposal Op) :
    Except CommitError (PreparedRecord × Canonical Data Op) := do
  proposal.body.validate
  let submitCursors := c.records.oplogCursors
  if submitCursors ≠ body.expectedSubmit ∨ c.records.admitWindow ≠ body.expectedAdmits then
    .error .rebaseStateChanged
  else if submitCursors.neck ≠ submitCursors.tail then .error .rebasePendingSubmissions
  else
    let (c, writes) ← body.transactions.foldlM (applyAdmitted setup body.localDevice)
      (c, OrdMap.empty)
    let records ← orStore (c.records.markAdmitsApplied body.through)
    let commit ← prepareReceipt setup proposal (OrdSet.toList writes)
    .ok (commit, { c with records := records })

/-- The `RejectSubmissions` branch. -/
def prepareReject (c : Canonical Data Op) (proposal : CommitProposal Op)
    (body : RejectSubmissionsProposal) :
    Except CommitError (PreparedRecord × Canonical Data Op) := do
  proposal.body.validate
  let cursors := c.records.oplogCursors
  if cursors ≠ body.expectedSubmit then .error .stalePushRejection
  else
    match U64.checkedSub cursors.tail 1 with
    | none => .error (.invalidDatabase .zeroSubmitTail)
    | some through =>
        let active := c.records.oplogRows cursors.neck through
        match ← prepareRejection setup c active with
        | none => .error .stalePushRejection
        | some repair =>
            let c ← repair.apply setup c
            let records ← orStore
              (c.records.rollbackIfUnchanged body.failedAt body.expectedSubmit)
            let commit ← prepareReceipt setup proposal repair.writes
            .ok (commit, { c with records := records })

/-- The `AcceptSubmissions` branch. -/
def prepareAccept (c : Canonical Data Op) (proposal : CommitProposal Op)
    (body : AcceptSubmissionsProposal) :
    Except CommitError (PreparedRecord × Canonical Data Op) := do
  proposal.body.validate
  let cursors := c.records.oplogCursors
  if cursors.head ≠ body.expectedSubmit.head ∨ cursors.neck ≠ body.expectedSubmit.neck ∨
      cursors.tail < body.expectedSubmit.tail then
    .error (.commitConflict .submitWindow)
  else
    let records ← orStore (c.records.trimOplog body.through body.checksum)
    let c ← acceptThrough setup { c with records := records } body.through
    let commit ← prepareReceipt setup proposal []
    .ok (commit, c)

/-- The `AppendAdmissions` branch. -/
def prepareAppend (c : Canonical Data Op) (proposal : CommitProposal Op)
    (body : AppendAdmissionsProposal) :
    Except CommitError (PreparedRecord × Canonical Data Op) := do
  proposal.body.validate
  if c.records.admitWindow ≠ body.expectedAdmits then .error (.commitConflict .admitWindow)
  else
    let records ← orStore (c.records.appendAdmits body.response)
    let commit ← prepareReceipt setup proposal []
    .ok (commit, { c with records := records })

/-- What `prepare_commit_proposal` does for a proposal without a receipt. -/
def prepareBody (c : Canonical Data Op) (proposal : CommitProposal Op)
    (accepted : List WriteRegion) (nonces : List ValueNonce) :
    Except CommitError (PreparedRecord × Canonical Data Op) :=
  match proposal.body with
  | .transaction body => prepareTransaction setup c proposal body accepted nonces
  | .applyAdmissions body => prepareApply setup c proposal body
  | .rejectSubmissions body => prepareReject setup c proposal body
  | .acceptSubmissions body => prepareAccept setup c proposal body
  | .appendAdmissions body => prepareAppend setup c proposal body

/-- `prepare_commit_proposal`. -/
def prepareCommitProposal (c : Canonical Data Op) (proposal : CommitProposal Op)
    (accepted : List WriteRegion) (nonces : List ValueNonce) :
    Except CommitError (PrepareOutcome Data Op) := do
  match ← committedReceipt setup c proposal with
  | some receipt => .ok (.alreadyCommitted receipt)
  | none =>
      let (commit, c) ← prepareBody setup c proposal accepted nonces
      .ok (.prepared commit c)

end Prepare

/-! ## Groups -/

/-- A queued proposal, with what its surroundings contribute: the nonces that will be
drawn for it, and whether it fails at some step for a reason of theirs. -/
structure Queued (Op : Type) where
  proposal : CommitProposal Op
  nonces : List ValueNonce
  fault : Option CommitError

/-- `GroupSlot`. -/
inductive GroupSlot where
  | prepared (submitted : Option DeviceSeq)
  | duplicatePrepared (submitted : Option DeviceSeq)
  | complete (result : Except CommitError CommitReceipt)

/-- `SeenGroupProposal`. -/
structure SeenGroupProposal where
  encoded : Bytes
  receipt : Option CommitReceipt
  submitted : Option DeviceSeq

/-- The locals of `commit_proposal_group`, and the state its savepoint holds. -/
structure GroupState (Data Op : Type) where
  canonical : Canonical Data Op
  acceptedWrites : OrdSet WriteRegion
  prepared : List PreparedRecord
  slots : List GroupSlot
  seen : OrdMap ProposalId SeenGroupProposal

/-- A group before its first member. -/
def GroupState.start {Data Op : Type} (c : Canonical Data Op) : GroupState Data Op :=
  ⟨c, OrdMap.empty, [], [], OrdMap.empty⟩

/-- A panic, which unwinds through the member and the group. -/
def CommitError.isPanic : CommitError → Bool
  | .client (.panic _) => true
  | _ => false

/-- The slot of a proposal whose id the group has seen. -/
def seenSlot (previous : SeenGroupProposal) (encoded : Bytes) : GroupSlot :=
  if previous.encoded ≠ encoded then
    .complete (.error (.invalidCommitProposal .differentPayloads))
  else match previous.receipt with
    | some receipt => .complete (.ok receipt)
    | none => .duplicatePrepared previous.submitted

/-- The receipt of a slot in a group that was recorded at `commitSeq`. -/
def GroupSlot.result (commitSeq : CommitSeq) : GroupSlot → Except CommitError CommitReceipt
  | .prepared submitted => .ok ⟨commitSeq, .applied, submitted⟩
  | .duplicatePrepared submitted => .ok ⟨commitSeq, .alreadyCommitted, submitted⟩
  | .complete result => result

section Group

variable {Data Op : Type} [DecidableEq Op] (setup : Setup Data Op)

/-- A member in its savepoint. -/
def prepareMember (c : Canonical Data Op) (queued : Queued Op) (accepted : List WriteRegion) :
    Except CommitError (PrepareOutcome Data Op) :=
  match queued.fault with
  | some error => .error error
  | none => prepareCommitProposal setup c queued.proposal accepted queued.nonces

/-- The group after a member was prepared, found committed or failed. -/
def GroupState.settle (g : GroupState Data Op) (id : ProposalId) (encoded : Bytes) :
    Except CommitError (PrepareOutcome Data Op) → Except CommitError (GroupState Data Op)
  | .ok (.prepared commit c) => .ok {
      canonical := c
      acceptedWrites := g.acceptedWrites.extend commit.writes
      prepared := g.prepared ++ [commit]
      slots := g.slots ++ [.prepared commit.submitted]
      seen := g.seen.insert id ⟨encoded, none, commit.submitted⟩ }
  | .ok (.alreadyCommitted receipt) => .ok { g with
      slots := g.slots ++ [.complete (.ok receipt)]
      seen := g.seen.insert id ⟨encoded, some receipt, receipt.submitted⟩ }
  | .error error =>
      if error.isPanic = true then .error .panicked
      else .ok { g with slots := g.slots ++ [.complete (.error error)] }

/-- One round of the loop of `commit_proposal_group`. -/
def groupMember (g : GroupState Data Op) (queued : Queued Op) :
    Except CommitError (GroupState Data Op) :=
  match setup.logical.encodeProposal queued.proposal with
  | .error error => .ok { g with slots := g.slots ++ [.complete (.error (.logical error))] }
  | .ok encoded =>
      match g.seen.get queued.proposal.id with
      | some previous => .ok { g with slots := g.slots ++ [seenSlot previous encoded] }
      | none =>
          g.settle queued.proposal.id encoded
            (prepareMember setup g.canonical queued g.acceptedWrites.toList)

/-- `finalize_group`, where the group has a prepared member. -/
def finalizeGroup (h : History) (prepared : List PreparedRecord) :
    Except CommitError (CommitSeq × History) :=
  if prepared = [] then .ok (h.current, h)
  else match h.recordGroup prepared with
    | .ok recorded => .ok recorded
    | .error fault => .error fault.toError

/-- `commit_proposal_group`: an error leaves the database as it was. -/
def commitProposalGroup (c : Canonical Data Op) (pins : HistoryPins)
    (group : List (Queued Op)) :
    Except CommitError (Canonical Data Op × List (Except CommitError CommitReceipt)) := do
  let g ← group.foldlM (groupMember setup) (GroupState.start c)
  let (commitSeq, history) ← finalizeGroup g.canonical.history g.prepared
  .ok ({ g.canonical with history := history.pruneFor pins },
    g.slots.map (GroupSlot.result commitSeq))

end Group

/-! ## Runs -/

/-- The committer: the canonical database and the pins of the open process. -/
structure Committer (Data Op : Type) where
  canonical : Canonical Data Op
  pins : HistoryPins

/-- What happens to a committer. -/
inductive CommitterEvent (Op : Type) where
  /-- A group is taken from the queue. -/
  | commitGroup (group : List (Queued Op))
  /-- A writable snapshot is captured, which pins the current sequence. -/
  | captureSnapshot
  /-- A pin is dropped. -/
  | dropPin (commitSeq : CommitSeq)
  /-- The process stops between two groups and the database is opened again. -/
  | crash

section Run

variable {Data Op : Type} [DecidableEq Op] (setup : Setup Data Op)

/-- What a group answers: one result for each proposal (`fail_group` if it failed). -/
def groupResults (s : Committer Data Op) (group : List (Queued Op)) :
    List (Except CommitError CommitReceipt) :=
  match commitProposalGroup setup s.canonical s.pins group with
  | .ok (_, results) => results
  | .error error => group.map fun _ => .error error

/-- The database after a group. -/
def groupCanonical (s : Committer Data Op) (group : List (Queued Op)) : Canonical Data Op :=
  match commitProposalGroup setup s.canonical s.pins group with
  | .ok (c, _) => c
  | .error _ => s.canonical

/-- One event. -/
def Committer.step (s : Committer Data Op) : CommitterEvent Op → Committer Data Op
  | .commitGroup group => { s with canonical := groupCanonical setup s group }
  | .captureSnapshot => { s with pins := s.pins.register s.canonical.history.current }
  | .dropPin commitSeq => { s with pins := s.pins.release commitSeq }
  | .crash => { s with pins := OrdMap.empty }

/-- A run of events. -/
def Committer.run (s : Committer Data Op) (events : List (CommitterEvent Op)) :
    Committer Data Op :=
  events.foldl (Committer.step setup) s

/-- A committer that was just opened over a database nothing was committed to. -/
def Committer.fresh (Op : Type) (data : Data) : Committer Data Op :=
  ⟨Canonical.fresh Op data, OrdMap.empty⟩

end Run

end Homebase.Multilite
