import Homebase.Multilite.Committer

set_option autoImplicit false

/-!
# Refinement: what one member of a commit group does

One inversion lemma for each branch of `prepare_commit_proposal`: what must have held
for the member to be prepared, and the state it leaves.  Everything that is said about
groups and runs of groups is derived from these.
-/

namespace Homebase.Multilite

open Foundation Homebase.Core List
open Client (OplogCursors AdmitCursors SpaceRecords ValueNonce DeviceOp)

variable {α : Type} {a : α}

theorem orLogical_eq_ok_iff {x : Except LogicalError α} : orLogical x = .ok a ↔ x = .ok a := by
  cases x <;> simp [orLogical]

theorem orStore_eq_ok_iff {x : Except Client.StoreFault α} : orStore x = .ok a ↔ x = .ok a := by
  cases x <;> simp [orStore]

theorem orClient_eq_ok_iff {x : Except Client.Fault α} : orClient x = .ok a ↔ x = .ok a := by
  cases x <;> simp [orClient]

theorem mapError_eq_ok_iff {ε ε' : Type} {f : ε → ε'} {x : Except ε α} :
    x.mapError f = .ok a ↔ x = .ok a := by
  cases x <;> simp [Except.mapError]

section Members

variable {Data Op : Type} {setup : Setup Data Op} {c c' : Canonical Data Op}
  {proposal : CommitProposal Op}

theorem prepareReceipt_ok_iff {writes : List WriteRegion} {commit : PreparedRecord} :
    prepareReceipt setup proposal writes = .ok commit ↔
      ∃ encoded, setup.logical.encodeProposal proposal = .ok encoded ∧
        commit = ⟨proposal.id, setup.sha256 encoded, none, writes⟩ := by
  rw [prepareReceipt, bind_eq_ok_iff]
  refine exists_congr fun encoded => ?_
  rw [orLogical_eq_ok_iff, Except.ok.injEq, eq_comm (b := commit), Setup.proposalHash]

/-! ## Receipts -/

/-- A member finds no receipt when no row has its id. -/
theorem committedReceipt_none (h : committedReceipt setup c proposal = .ok none) :
    c.history.committed proposal.id = none := by
  rw [committedReceipt] at h
  split at h
  next hnone => exact hnone
  · obtain ⟨encoded, -, h⟩ := of_bind h
    split at h <;> cases h

theorem committedReceipt_of_row {row : CommitRow} {encoded : Bytes}
    (hrow : c.history.committed proposal.id = some row)
    (hencoded : setup.logical.encodeProposal proposal = .ok encoded) :
    committedReceipt setup c proposal =
      if row.proposalHash = setup.sha256 encoded then
        .ok (some ⟨row.commitSeq, .alreadyCommitted, row.submitted⟩)
      else .error (.invalidCommitProposal .anotherPayload) := by
  simp only [committedReceipt, hrow, hencoded, orLogical, ok_bind, Setup.proposalHash]
  by_cases hhash : row.proposalHash = setup.sha256 encoded <;> simp [hhash]

/-! ## Operations -/

variable {op : Op}

theorem applyOperation_ok (h : applyOperation setup c op = .ok c') :
    ∃ data, c' = { c with data := data } := by
  obtain ⟨data, -, h⟩ := of_bind h
  exact ⟨data, (Except.ok.inj h).symm⟩

variable {transaction : Transaction Op}

theorem applyTransaction_ok (h : applyTransaction setup c transaction = .ok c') :
    ∃ data, c' = { c with data := data } := by
  refine foldlM_invariant (fun s => ∃ data, s = { c with data := data }) ?_ ⟨c.data, rfl⟩ h
  rintro s op t - ⟨data, rfl⟩ ht
  obtain ⟨data', rfl⟩ := applyOperation_ok ht
  exact ⟨data', rfl⟩

/-- The jobs with the one that is captured for an operation. -/
def CapturesJob (setup : Setup Data Op) (op : Op) (jobs jobs' : OrdMap RepairId (RepairSpec × Sidecar)) :
    Prop :=
  match setup.logical.repairSpec op with
  | none => jobs' = jobs
  | some spec => jobs.get spec.id = none ∧ ∃ sidecar, jobs' = jobs.insert spec.id (spec, sidecar)

theorem captureLocalRepair_ok (h : captureLocalRepair setup c op = .ok c') :
    ∃ jobs, CapturesJob setup op c.jobs jobs ∧ c' = { c with jobs := jobs } := by
  rw [captureLocalRepair] at h
  cases hspec : setup.logical.repairSpec op with
  | none =>
    rw [hspec] at h
    cases h
    exact ⟨c.jobs, by simp [CapturesJob, hspec], rfl⟩
  | some spec =>
    rw [hspec] at h
    obtain ⟨sidecar, -, h⟩ := of_bind h
    obtain ⟨hfree, h⟩ := of_guard h
    cases h
    have hnone : c.jobs.get spec.id = none := by simpa using hfree
    exact ⟨_, by rw [CapturesJob, hspec]; exact ⟨hnone, sidecar, rfl⟩, rfl⟩

theorem applySpeculativeOperation_ok (h : applySpeculativeOperation setup c op = .ok c') :
    ∃ jobs data, CapturesJob setup op c.jobs jobs ∧ c' = { c with jobs := jobs, data := data } := by
  obtain ⟨c₁, hcapture, happly⟩ := of_bind h
  obtain ⟨jobs, hjobs, rfl⟩ := captureLocalRepair_ok hcapture
  obtain ⟨data, rfl⟩ := applyOperation_ok happly
  exact ⟨jobs, data, hjobs, rfl⟩

/-- The jobs of `jobs'` are those of `jobs` and one for each spec, whose ids were free. -/
def CapturesAll (specs : List RepairSpec) (jobs jobs' : OrdMap RepairId (RepairSpec × Sidecar)) :
    Prop :=
  (∀ spec ∈ specs, jobs.get spec.id = none) ∧ (specs.map RepairSpec.id).Nodup ∧
    (∀ id, (∀ spec ∈ specs, spec.id ≠ id) → jobs'.get id = jobs.get id) ∧
    ∀ spec ∈ specs, ∃ sidecar, jobs'.get spec.id = some (spec, sidecar)

theorem CapturesAll.nil (jobs : OrdMap RepairId (RepairSpec × Sidecar)) : CapturesAll [] jobs jobs :=
  ⟨by simp, by simp, by simp, by simp⟩

theorem CapturesAll.cons {spec : RepairSpec} {specs : List RepairSpec} {sidecar : Sidecar}
    {jobs jobs' : OrdMap RepairId (RepairSpec × Sidecar)} (hfree : jobs.get spec.id = none)
    (h : CapturesAll specs (jobs.insert spec.id (spec, sidecar)) jobs') :
    CapturesAll (spec :: specs) jobs jobs' := by
  obtain ⟨hnone, hnodup, hframe, hjobs⟩ := h
  have hother : ∀ other ∈ specs, other.id ≠ spec.id := by
    intro other hmem heq
    have hget := hnone other hmem
    rw [heq, OrdMap.get_insert_self] at hget
    cases hget
  refine ⟨?_, ?_, ?_, ?_⟩
  · intro other hmem
    rcases mem_cons.mp hmem with rfl | hmem
    · exact hfree
    · have hget := hnone other hmem
      rwa [OrdMap.get_insert_of_ne _ _ (hother other hmem)] at hget
  · rw [map_cons, nodup_cons]
    refine ⟨?_, hnodup⟩
    intro hmem
    obtain ⟨other, hmem, heq⟩ := mem_map.mp hmem
    exact hother other hmem heq
  · intro id hid
    rw [hframe id fun other hmem => hid other (mem_cons_of_mem _ hmem),
      OrdMap.get_insert_of_ne _ _ (Ne.symm (hid spec mem_cons_self))]
  · intro other hmem
    rcases mem_cons.mp hmem with rfl | hmem
    · refine ⟨sidecar, ?_⟩
      rw [hframe _ fun other hmem => hother other hmem, OrdMap.get_insert_self]
    · exact hjobs other hmem

variable {ops : List Op}

theorem foldlM_applySpeculative_ok (h : ops.foldlM (applySpeculativeOperation setup) c = .ok c') :
    ∃ jobs data, CapturesAll (ops.filterMap setup.logical.repairSpec) c.jobs jobs ∧
      c' = { c with jobs := jobs, data := data } := by
  induction ops generalizing c with
  | nil =>
    cases h
    exact ⟨_, _, .nil _, rfl⟩
  | cons op ops ih =>
    rw [foldlM_cons] at h
    obtain ⟨c₁, hop, h⟩ := of_bind h
    obtain ⟨jobs₁, data₁, hjobs₁, rfl⟩ := applySpeculativeOperation_ok hop
    obtain ⟨jobs, data, hjobs, rfl⟩ := ih h
    refine ⟨jobs, data, ?_, rfl⟩
    rw [CapturesJob] at hjobs₁
    cases hspec : setup.logical.repairSpec op with
    | none =>
      rw [hspec] at hjobs₁
      rw [filterMap_cons_none hspec, ← show jobs₁ = c.jobs from hjobs₁]
      exact hjobs
    | some spec =>
      rw [hspec] at hjobs₁
      obtain ⟨hfree, sidecar, rfl⟩ := hjobs₁
      rw [filterMap_cons_some hspec]
      exact .cons hfree hjobs

theorem retire_ok {id : RepairId} (h : retire c id = .ok c') :
    (c.jobs.get id).isSome ∧ c' = { c with jobs := c.jobs.erase id } := by
  rw [retire] at h
  split at h
  next hsome => exact ⟨hsome, (Except.ok.inj h).symm⟩
  · cases h

/-- The jobs after the ones with these ids were retired. -/
def eraseAll (ids : List RepairId) (jobs : OrdMap RepairId (RepairSpec × Sidecar)) :
    OrdMap RepairId (RepairSpec × Sidecar) :=
  ids.foldl OrdMap.erase jobs

theorem get_eraseAll (ids : List RepairId) (jobs : OrdMap RepairId (RepairSpec × Sidecar))
    (id : RepairId) : (eraseAll ids jobs).get id = if id ∈ ids then none else jobs.get id := by
  induction ids generalizing jobs with
  | nil => rfl
  | cons first rest ih =>
    have hstep : eraseAll (first :: rest) jobs = eraseAll rest (jobs.erase first) := rfl
    rw [hstep, ih, OrdMap.get_erase]
    by_cases hrest : id ∈ rest <;> by_cases hfirst : id = first <;> simp [hrest, hfirst]

theorem foldlM_retire_ok {ids : List RepairId} (h : ids.foldlM retire c = .ok c') :
    c' = { c with jobs := eraseAll ids c.jobs } := by
  induction ids generalizing c with
  | nil =>
    cases h
    rfl
  | cons id ids ih =>
    rw [foldlM_cons] at h
    obtain ⟨c₁, hid, h⟩ := of_bind h
    obtain ⟨-, rfl⟩ := retire_ok hid
    exact ih h

theorem revertOperation_ok (h : revertOperation setup c op = .ok c') :
    ∃ data, c' = { c with
      data := data
      jobs := eraseAll ((setup.logical.repairSpec op).map RepairSpec.id).toList c.jobs } := by
  rw [revertOperation] at h
  cases hspec : setup.logical.repairSpec op with
  | none =>
    rw [hspec] at h
    obtain ⟨data, -, h⟩ := of_bind h
    cases h
    exact ⟨data, rfl⟩
  | some spec =>
    rw [hspec] at h
    dsimp only at h
    split at h
    · cases h
    next stored sidecar hget =>
      obtain ⟨-, h⟩ := of_guard h
      obtain ⟨data, -, h⟩ := of_bind h
      obtain ⟨-, rfl⟩ := retire_ok h
      exact ⟨data, rfl⟩

theorem foldlM_revert_ok (h : ops.foldlM (revertOperation setup) c = .ok c') :
    ∃ data, c' = { c with
      data := data
      jobs := eraseAll ((ops.filterMap setup.logical.repairSpec).map RepairSpec.id) c.jobs } := by
  induction ops generalizing c with
  | nil =>
    cases h
    exact ⟨_, rfl⟩
  | cons op ops ih =>
    rw [foldlM_cons] at h
    obtain ⟨c₁, hop, h⟩ := of_bind h
    obtain ⟨data₁, rfl⟩ := revertOperation_ok hop
    obtain ⟨data, rfl⟩ := ih h
    refine ⟨data, ?_⟩
    cases hspec : setup.logical.repairSpec op with
    | none => rw [filterMap_cons_none hspec]; rfl
    | some spec => rw [filterMap_cons_some hspec]; rfl

/-! ## The pending journal -/

theorem pendingInsert_ok {seq : DeviceSeq} (h : pendingInsert setup c seq transaction = .ok c') :
    (setup.logical.repairSpecs transaction).Nodup ∧ c.pending.get seq = none ∧
      c' = { c with pending := c.pending.insert seq transaction } := by
  rw [pendingInsert] at h
  obtain ⟨hnodup, h⟩ := of_guard h
  obtain ⟨-, h⟩ := of_guard h
  obtain ⟨_, -, h⟩ := of_bind h
  obtain ⟨hfree, h⟩ := of_guard h
  cases h
  exact ⟨not_not.mp hnodup, by simpa using hfree, rfl⟩

/-- The ids of the repair jobs of some pending rows. -/
def repairIds (setup : Setup Data Op) (rows : List (DeviceSeq × Transaction Op)) : List RepairId :=
  (rows.flatMap fun row => setup.logical.repairSpecs row.2).map RepairSpec.id

theorem acceptThrough_ok {through : DeviceSeq} (h : acceptThrough setup c through = .ok c') :
    c' = { c with
      jobs := eraseAll (repairIds setup
        (c.pending.entries.takeWhile fun row => decide (row.1 ≤ through))) c.jobs
      pending := c.pending.retain fun seq _ => decide (through < seq) } := by
  obtain ⟨c₁, hretire, h⟩ := of_bind h
  cases h
  rw [foldlM_retire_ok hretire]
  rfl

theorem compile_ok {compiled : CompiledTransaction Op}
    (h : setup.logical.compile transaction = .ok compiled) :
    compiled.logical = transaction ∧ compiled.rejection = transaction.operations.reverse := by
  obtain ⟨lowered, -, h⟩ := of_bind h
  obtain ⟨manifest, -, h⟩ := of_bind h
  cases h
  exact ⟨rfl, rfl⟩

/-- The inverse of a pending journal: its operations, last first. -/
def inverseOf (rows : List (DeviceSeq × Transaction Op)) : List Op :=
  rows.reverse.flatMap fun row => row.2.operations.reverse

theorem prepareRejection_ok {active : List (DeviceSeq × DeviceOp)} {repair : RejectionRepair Op}
    (h : prepareRejection setup c active = .ok (some repair)) :
    c.pending.entries.map Prod.fst = commitSeqs active ∧ c.pending.entries ≠ [] ∧
      repair.pending = c.pending.entries ∧ repair.effects = inverseOf c.pending.entries ∧
      repair.writes.Pairwise (· < ·) := by
  rw [prepareRejection] at h
  obtain ⟨hmatch, h⟩ := of_guard h
  obtain ⟨compiled, hcompiled, h⟩ := of_bind h
  dsimp only at h
  split at h
  · cases h
  next hne =>
    cases h
    refine ⟨not_not.mp hmatch, hne, rfl, ?_, OrdSet.toList_sorted _⟩
    have hrejection : compiled.map CompiledTransaction.rejection =
        c.pending.entries.map fun row => row.2.operations.reverse :=
      map_of_mapM (fun row b hb => (compile_ok hb).2) (orLogical_eq_ok_iff.mp hcompiled)
    simp only [inverseOf, flatMap_def, map_reverse, hrejection]

theorem validateNoJobs_ok (h : validateNoJobs c = .ok ()) : c.jobs = OrdMap.empty := by
  rw [validateNoJobs] at h
  split at h
  next hnil => exact OrdMap.ext_get (OrdMap.entries_eq_nil_iff.mp hnil)
  · cases h

section Reject

variable [DecidableEq Op]

theorem RejectionRepair.apply_ok {repair : RejectionRepair Op} (h : repair.apply setup c = .ok c') :
    ∃ data, c' = { c with data := data, jobs := OrdMap.empty, pending := OrdMap.empty } := by
  rw [RejectionRepair.apply] at h
  obtain ⟨-, h⟩ := of_guard h
  obtain ⟨c₁, hrevert, h⟩ := of_bind h
  obtain ⟨⟨⟩, hjobs, h⟩ := of_bind h
  cases h
  obtain ⟨data, rfl⟩ := foldlM_revert_ok hrevert
  refine ⟨data, ?_⟩
  rw [validateNoJobs_ok hjobs]

end Reject

/-! ## The branches -/

variable {body : TransactionProposal Op}

theorem toHomebase_ok {lowered : List (Mutation Bytes) × List RangeAssert}
    (h : body.toHomebase = .ok lowered) :
    lowered = (body.compiled.mutations,
      body.footprint.plan body.isolation body.snapshot.authorityAppliedThrough) := by
  obtain ⟨-, -, h⟩ := of_bind h
  exact (Except.ok.inj h).symm

variable {commit : PreparedRecord} {accepted : List WriteRegion} {nonces : List ValueNonce}

theorem prepareTransaction_ok
    (h : prepareTransaction setup c proposal body accepted nonces = .ok (commit, c')) :
    body.snapshot.commitSeq ≤ c.history.current ∧ checkConflicts c body accepted = .ok () ∧
      ∃ jobs data encoded seq records,
        CapturesAll (setup.logical.repairSpecs body.compiled.logical) c.jobs jobs ∧
        setup.logical.encodeProposal proposal = .ok encoded ∧
        submit setup c.records nonces body.compiled.mutations
          (body.footprint.plan body.isolation body.snapshot.authorityAppliedThrough) =
            .ok (seq, records) ∧
        c.pending.get seq = none ∧
        commit = ⟨proposal.id, setup.sha256 encoded, some seq,
          writesFromMutations body.compiled.mutations⟩ ∧
        c' = { c with
          data := data
          jobs := jobs
          records := records
          pending := c.pending.insert seq body.compiled.logical } := by
  rw [prepareTransaction] at h
  obtain ⟨hcurrent, h⟩ := of_guard h
  obtain ⟨-, -, h⟩ := of_bind h
  obtain ⟨⟨⟩, hconflicts, h⟩ := of_bind h
  obtain ⟨c₁, happly, h⟩ := of_bind h
  obtain ⟨record, hrecord, h⟩ := of_bind h
  obtain ⟨⟨mutations, assertions⟩, hlower, h⟩ := of_bind h
  obtain ⟨⟨seq, records⟩, hsubmit, h⟩ := of_bind h
  obtain ⟨c₂, hinsert, h⟩ := of_bind h
  cases h
  cases toHomebase_ok hlower
  obtain ⟨encoded, hencoded, rfl⟩ := prepareReceipt_ok_iff.mp hrecord
  obtain ⟨jobs, data, hjobs, rfl⟩ := foldlM_applySpeculative_ok (mapError_eq_ok_iff.mp happly)
  obtain ⟨-, hfree, rfl⟩ := pendingInsert_ok hinsert
  exact ⟨not_lt.mp hcurrent, hconflicts, jobs, data, encoded, seq, records, hjobs, hencoded,
    orClient_eq_ok_iff.mp hsubmit, hfree, rfl, rfl⟩

theorem foldlM_applyAdmitted_ok {localDevice : DeviceId} {writes writes' : OrdSet WriteRegion}
    {transactions : List (DeviceId × Transaction Op)}
    (h : transactions.foldlM (applyAdmitted setup localDevice) (c, writes) = .ok (c', writes')) :
    ∃ data, c' = { c with data := data } := by
  refine foldlM_invariant (fun s => ∃ data, s.1 = { c with data := data }) ?_ ⟨c.data, rfl⟩ h
  rintro ⟨s, seen⟩ admitted ⟨t, seen'⟩ - ⟨data, hs⟩ ht
  cases hs
  rw [applyAdmitted] at ht
  split at ht
  · cases ht
    exact ⟨data, rfl⟩
  · obtain ⟨compiled, -, ht⟩ := of_bind ht
    obtain ⟨t', happly, ht⟩ := of_bind ht
    cases ht
    obtain ⟨data', rfl⟩ := applyTransaction_ok happly
    exact ⟨data', rfl⟩

theorem prepareApply_ok {body : ApplyAdmissionsProposal Op}
    (h : prepareApply setup c proposal body = .ok (commit, c')) :
    c.records.oplogCursors = body.expectedSubmit ∧ c.records.admitWindow = body.expectedAdmits ∧
      c.records.oplogCursors.neck = c.records.oplogCursors.tail ∧
      ∃ data encoded records writes,
        c.records.markAdmitsApplied body.through = .ok records ∧
        setup.logical.encodeProposal proposal = .ok encoded ∧
        commit = ⟨proposal.id, setup.sha256 encoded, none, OrdSet.toList writes⟩ ∧
        c' = { c with data := data, records := records } := by
  obtain ⟨-, -, h⟩ := of_bind h
  dsimp only at h
  obtain ⟨hexpected, h⟩ := of_guard h
  obtain ⟨hempty, h⟩ := of_guard h
  obtain ⟨⟨c₁, writes⟩, hfold, h⟩ := of_bind h
  obtain ⟨records, hmark, h⟩ := of_bind h
  obtain ⟨record, hrecord, h⟩ := of_bind h
  cases h
  obtain ⟨encoded, hencoded, rfl⟩ := prepareReceipt_ok_iff.mp hrecord
  obtain ⟨data, rfl⟩ := foldlM_applyAdmitted_ok hfold
  obtain ⟨hsubmit, hadmits⟩ := not_or.mp hexpected
  exact ⟨not_not.mp hsubmit, not_not.mp hadmits, not_not.mp hempty, data, encoded, records,
    writes, orStore_eq_ok_iff.mp hmark, hencoded, rfl, rfl⟩

theorem prepareReject_ok [DecidableEq Op] {body : RejectSubmissionsProposal}
    (hbody : proposal.body = .rejectSubmissions body)
    (h : prepareReject setup c proposal body = .ok (commit, c')) :
    c.records.oplogCursors = body.expectedSubmit ∧
      body.failedAt = body.expectedSubmit.neck ∧ body.failedAt < body.expectedSubmit.tail ∧
      ∃ data encoded records writes,
        c.records.rollbackIfUnchanged body.failedAt body.expectedSubmit = .ok records ∧
        setup.logical.encodeProposal proposal = .ok encoded ∧ writes.Pairwise (· < ·) ∧
        commit = ⟨proposal.id, setup.sha256 encoded, none, writes⟩ ∧
        c' = { c with
          data := data
          jobs := OrdMap.empty
          pending := OrdMap.empty
          records := records } := by
  obtain ⟨⟨⟩, hvalid, h⟩ := of_bind h
  rw [hbody, ProposalBody.validate] at hvalid
  obtain ⟨hwindow, -⟩ := of_guard hvalid
  dsimp only at h
  obtain ⟨hexpected, h⟩ := of_guard h
  split at h
  · cases h
  · obtain ⟨found, hrepair, h⟩ := of_bind h
    split at h
    · cases h
    next repair =>
      obtain ⟨c₁, happly, h⟩ := of_bind h
      obtain ⟨records, hrollback, h⟩ := of_bind h
      obtain ⟨record, hrecord, h⟩ := of_bind h
      cases h
      obtain ⟨encoded, hencoded, rfl⟩ := prepareReceipt_ok_iff.mp hrecord
      obtain ⟨data, rfl⟩ := RejectionRepair.apply_ok happly
      obtain ⟨hneck, htail⟩ := not_or.mp hwindow
      exact ⟨not_not.mp hexpected, not_not.mp hneck, not_le.mp htail, data, encoded, records,
        repair.writes, orStore_eq_ok_iff.mp hrollback, hencoded,
        (prepareRejection_ok hrepair).2.2.2.2, rfl, rfl⟩

theorem prepareAccept_ok {body : AcceptSubmissionsProposal}
    (hbody : proposal.body = .acceptSubmissions body)
    (h : prepareAccept setup c proposal body = .ok (commit, c')) :
    c.records.oplogCursors.neck ≤ body.through ∧ body.through < c.records.oplogCursors.tail ∧
      ∃ encoded records,
        c.records.trimOplog body.through body.checksum = .ok records ∧
        setup.logical.encodeProposal proposal = .ok encoded ∧
        commit = ⟨proposal.id, setup.sha256 encoded, none, []⟩ ∧
        c' = { c with
          jobs := eraseAll (repairIds setup
            (c.pending.entries.takeWhile fun row => decide (row.1 ≤ body.through))) c.jobs
          pending := c.pending.retain fun seq _ => decide (body.through < seq)
          records := records } := by
  obtain ⟨⟨⟩, hvalid, h⟩ := of_bind h
  rw [hbody, ProposalBody.validate] at hvalid
  obtain ⟨hwindow, -⟩ := of_guard hvalid
  dsimp only at h
  obtain ⟨hexpected, h⟩ := of_guard h
  obtain ⟨records, htrim, h⟩ := of_bind h
  obtain ⟨c₁, haccept, h⟩ := of_bind h
  obtain ⟨record, hrecord, h⟩ := of_bind h
  cases h
  obtain ⟨encoded, hencoded, rfl⟩ := prepareReceipt_ok_iff.mp hrecord
  obtain ⟨-, hneck, htail⟩ := not_or.mp hexpected |>.imp_right not_or.mp
  obtain ⟨hlow, hhigh⟩ := not_or.mp hwindow
  rw [not_not.mp hneck]
  refine ⟨not_lt.mp hlow, lt_of_lt_of_le (not_le.mp hhigh) (not_lt.mp htail), encoded,
    records, orStore_eq_ok_iff.mp htrim, hencoded, rfl, ?_⟩
  rw [acceptThrough_ok haccept]

theorem prepareAppend_ok {body : AppendAdmissionsProposal}
    (h : prepareAppend setup c proposal body = .ok (commit, c')) :
    c.records.admitWindow = body.expectedAdmits ∧
      ∃ encoded records,
        c.records.appendAdmits body.response = .ok records ∧
        setup.logical.encodeProposal proposal = .ok encoded ∧
        commit = ⟨proposal.id, setup.sha256 encoded, none, []⟩ ∧
        c' = { c with records := records } := by
  obtain ⟨-, -, h⟩ := of_bind h
  obtain ⟨hexpected, h⟩ := of_guard h
  obtain ⟨records, happend, h⟩ := of_bind h
  obtain ⟨record, hrecord, h⟩ := of_bind h
  cases h
  obtain ⟨encoded, hencoded, rfl⟩ := prepareReceipt_ok_iff.mp hrecord
  exact ⟨not_not.mp hexpected, encoded, records, orStore_eq_ok_iff.mp happend, hencoded, rfl, rfl⟩

/-- What every prepared member has in common: its record, and a commit log it left alone. -/
theorem prepareBody_ok [DecidableEq Op]
    (h : prepareBody setup c proposal accepted nonces = .ok (commit, c')) :
    c'.history = c.history ∧ commit.writes.Pairwise (· < ·) ∧
      ∃ encoded, setup.logical.encodeProposal proposal = .ok encoded ∧
        commit.proposalId = proposal.id ∧ commit.proposalHash = setup.sha256 encoded := by
  rw [prepareBody] at h
  split at h
  · obtain ⟨-, -, jobs, data, encoded, seq, records, -, hencoded, -, -, rfl, rfl⟩ :=
      prepareTransaction_ok h
    exact ⟨rfl, OrdSet.toList_sorted _, encoded, hencoded, rfl, rfl⟩
  · obtain ⟨-, -, -, data, encoded, records, writes, -, hencoded, rfl, rfl⟩ := prepareApply_ok h
    exact ⟨rfl, OrdSet.toList_sorted _, encoded, hencoded, rfl, rfl⟩
  next body hbody =>
    obtain ⟨-, -, -, data, encoded, records, writes, -, hencoded, hsorted, rfl, rfl⟩ :=
      prepareReject_ok hbody h
    exact ⟨rfl, hsorted, encoded, hencoded, rfl, rfl⟩
  next body hbody =>
    obtain ⟨-, -, encoded, records, -, hencoded, rfl, rfl⟩ := prepareAccept_ok hbody h
    exact ⟨rfl, List.Pairwise.nil, encoded, hencoded, rfl, rfl⟩
  · obtain ⟨-, encoded, records, -, hencoded, rfl, rfl⟩ := prepareAppend_ok h
    exact ⟨rfl, List.Pairwise.nil, encoded, hencoded, rfl, rfl⟩

end Members

end Homebase.Multilite
