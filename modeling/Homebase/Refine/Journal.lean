import Homebase.Refine.Groups

set_option autoImplicit false

/-!
# Refinement: the pending journal and the active window

Three stores describe the transactions that the server has not disposed of: the active
window of the client's oplog, the pending journal and the repair sidecars.  `Journal`
says how they agree.  Each branch of the committer keeps it.
-/

namespace Homebase.Multilite

open Foundation Homebase.Core List
open OrdMap (get_insert mem_entries_iff)
open Client (OplogCursors SpaceRecords ValueNonce DeviceOp)

/-! ## The transitions of the submit log -/

/-- `matches!(operation, DeviceOp::Commit { .. })`. -/
def isCommit : DeviceOp → Bool
  | .commit _ _ _ _ => true
  | .rollback _ => false

theorem orStorage_eq_ok_iff {α : Type} {error : Client.StorageError} {x : Option α} {a : α} :
    Client.orStorage error x = .ok a ↔ x = some a := by
  cases x <;> simp [Client.orStorage]

section Records

variable {r r' : SpaceRecords}

theorem orCipher_eq_ok_iff {α : Type} {x : Except Client.CipherError α} {a : α} :
    Client.orCipher x = .ok a ↔ x = .ok a := by
  cases x <;> simp [Client.orCipher]

/-- A submission appends a commit at the tail, with the assertions it was given. -/
theorem submit_ok {Data Op : Type} {setup : Setup Data Op} {nonces : List ValueNonce}
    {mutations : List (Mutation Bytes)} {assertions : List RangeAssert} {seq : DeviceSeq}
    (h : submit setup r nonces mutations assertions = .ok (seq, r')) :
    seq = r.oplogCursors.tail ∧ ∃ op tail, isCommit op = true ∧
      assertions.mapM (Client.encodeAssert setup.crypto setup.mode) = .ok op.rangeAsserts ∧
      tail.val = seq.val + 1 ∧ r'.oplog = r.oplog.insert seq op ∧
      r'.oplogCursors = { r.oplogCursors with tail := tail } := by
  obtain ⟨encoded, hencoded, h⟩ := of_bind h
  obtain ⟨mutations', -, hencoded⟩ := of_bind (orCipher_eq_ok_iff.mp hencoded)
  obtain ⟨asserts, hasserts, hencoded⟩ := of_bind hencoded
  cases hencoded
  obtain ⟨-, h⟩ := of_guard h
  split at h
  · cases h
  next reserved hreserve =>
    obtain ⟨entries, -, h⟩ := of_bind h
    split at h
    · cases h
    next committed r₁ hcommit =>
      cases h
      obtain ⟨versions, -, hreserve⟩ := of_bind hreserve
      cases hreserve
      rw [SpaceRecords.commit] at hcommit
      obtain ⟨-, hcommit⟩ := of_guard hcommit
      obtain ⟨high, -, hcommit⟩ := of_bind hcommit
      obtain ⟨-, hcommit⟩ := of_guard hcommit
      obtain ⟨tail, htail, hcommit⟩ := of_bind hcommit
      cases hcommit
      refine ⟨rfl, DeviceOp.commitWithAsserts entries asserts .unchecked, tail, rfl, hasserts, ?_,
        rfl, rfl⟩
      rw [Client.plus] at htail
      split at htail
      next sum hsum =>
        cases htail
        exact U64.checkedAdd_eq_some hsum
      · cases htail

/-- An acknowledgement inside the window moves its neck behind what was acknowledged. -/
theorem trimOplog_ok {through : DeviceSeq} {checksum : DeviceChecksum}
    (h : r.trimOplog through checksum = .ok r') (hneck : r.oplogCursors.neck ≤ through)
    (hhead : r.oplogCursors.head ≤ r.oplogCursors.neck)
    (htail : through < r.oplogCursors.tail) :
    r'.oplog = r.oplog.retain (fun seq _ => decide (through < seq)) ∧
      ∃ next, next.val = through.val + 1 ∧ r'.oplogCursors = ⟨next, next, r.oplogCursors.tail⟩ := by
  have hlt : through.val + 1 < 2 ^ 64 := by
    have := Fin.lt_def.mp htail
    omega
  have hnext : (U64.saturatingAdd through 1).val = through.val + 1 := by
    rw [U64.val_saturatingAdd]
    change min (through.val + 1) (2 ^ 64 - 1) = _
    omega
  rw [SpaceRecords.trimOplog] at h
  dsimp only at h
  rw [if_neg (by rintro ⟨hlow, -⟩; exact absurd hneck (not_le.mpr hlow))] at h
  cases h
  refine ⟨rfl, U64.saturatingAdd through 1, hnext, ?_⟩
  have hmin : min (U64.saturatingAdd through 1) r.oplogCursors.tail =
      U64.saturatingAdd through 1 := by
    refine min_eq_left ?_
    rw [Fin.le_def, hnext]
    exact htail
  have hnewer : r.oplogCursors.neck < U64.saturatingAdd through 1 := by
    rw [Fin.lt_def, hnext]
    have := Fin.le_def.mp hneck
    omega
  rw [hmin, max_eq_right (le_trans hhead (le_of_lt hnewer)), max_eq_right (le_of_lt hnewer)]
  have hmoved : U64.saturatingAdd through 1 ≠ r.oplogCursors.neck := ne_of_gt hnewer
  rw [if_pos (Or.inr hmoved)]
  rfl

/-- A guarded rollback of the whole window leaves its marker as the window. -/
theorem rollbackIfUnchanged_ok {target : DeviceSeq} {expected : OplogCursors}
    (h : r.rollbackIfUnchanged target expected = .ok r') (hexpected : r.oplogCursors = expected)
    (htarget : target = expected.neck) :
    r'.oplog = r.oplog.insert expected.tail (.rollback target) ∧
      ∃ tail, tail.val = expected.tail.val + 1 ∧
        r'.oplogCursors = ⟨expected.head, expected.tail, tail⟩ := by
  obtain ⟨completed, -, h⟩ := of_bind h
  rw [if_neg (by rintro ⟨hne, -⟩; exact hne hexpected), SpaceRecords.rollback] at h
  rw [hexpected, htarget] at h
  rw [if_neg (by rintro ⟨hlt, -⟩; exact lt_irrefl _ hlt)] at h
  obtain ⟨-, h⟩ := of_guard h
  obtain ⟨tail, htail, h⟩ := of_bind h
  cases h
  rw [htarget]
  refine ⟨rfl, tail, ?_, rfl⟩
  exact U64.checkedAdd_eq_some (orStorage_eq_ok_iff.mp htail)

theorem markAdmitsApplied_ok {target : AdmissionSeq} (h : r.markAdmitsApplied target = .ok r') :
    r'.oplog = r.oplog ∧ r'.oplogCursors = r.oplogCursors := by
  rw [SpaceRecords.markAdmitsApplied] at h
  obtain ⟨-, h⟩ := of_guard h
  split at h <;> cases h <;> exact ⟨rfl, rfl⟩

theorem appendAdmits_ok {response : PullResponse} (h : r.appendAdmits response = .ok r') :
    r'.oplog = r.oplog ∧ r'.oplogCursors = r.oplogCursors := by
  rw [SpaceRecords.appendAdmits] at h
  split at h
  · cases h
  · obtain ⟨after, -, h⟩ := of_bind h
    split at h
    · cases h
    · split at h
      · cases h
        exact ⟨rfl, rfl⟩
      · obtain ⟨tail, -, h⟩ := of_bind h
        cases h
        exact ⟨rfl, rfl⟩

end Records

/-! ## Agreement of the three stores -/

/-- A commit of the active window. -/
def ActiveCommit (r : SpaceRecords) (seq : DeviceSeq) : Prop :=
  r.oplogCursors.neck ≤ seq ∧ seq < r.oplogCursors.tail ∧
    ∃ op, r.oplog.get seq = some op ∧ isCommit op = true

/-- The journal has one row for each commit of the active window, which holds the
transaction that commit was made from, and there is one repair job for each destructive
operation of a pending transaction. -/
structure Journal {Data Op : Type} (setup : Setup Data Op)
    (origins : OrdMap DeviceSeq (Transaction Op)) (c : Canonical Data Op) : Prop where
  head_le : c.records.oplogCursors.head ≤ c.records.oplogCursors.neck
  neck_le : c.records.oplogCursors.neck ≤ c.records.oplogCursors.tail
  pending_iff : ∀ seq, (c.pending.get seq).isSome ↔ ActiveCommit c.records seq
  origin : ∀ seq transaction, c.pending.get seq = some transaction →
    origins.get seq = some transaction
  job_iff : ∀ id spec, (∃ sidecar, c.jobs.get id = some (spec, sidecar)) ↔
    ∃ seq transaction, c.pending.get seq = some transaction ∧
      spec ∈ setup.logical.repairSpecs transaction ∧ spec.id = id
  /-- No two pending transactions share a repair job. -/
  jobs_apart : ∀ seq seq' transaction transaction' spec spec',
    c.pending.get seq = some transaction → spec ∈ setup.logical.repairSpecs transaction →
    c.pending.get seq' = some transaction' → spec' ∈ setup.logical.repairSpecs transaction' →
    spec.id = spec'.id → seq = seq'

namespace Journal

variable {Data Op : Type} {setup : Setup Data Op} {origins : OrdMap DeviceSeq (Transaction Op)}
  {c c' : Canonical Data Op}

theorem fresh (data : Data) :
    Journal setup OrdMap.empty (Canonical.fresh Op data) where
  head_le := le_refl _
  neck_le := le_refl _
  pending_iff := by
    intro seq
    simp [Canonical.fresh, ActiveCommit, SpaceRecords.empty]
  origin := by
    intro seq transaction h
    cases h
  job_iff := by
    intro id spec
    simp [Canonical.fresh]
  jobs_apart := by
    intro seq seq' transaction transaction' spec spec' h
    cases h

/-- The journal says nothing about the SQL state, the admit log and the commit log. -/
theorem congr (h : Journal setup origins c) (hjobs : c'.jobs = c.jobs)
    (hpending : c'.pending = c.pending) (hoplog : c'.records.oplog = c.records.oplog)
    (hcursors : c'.records.oplogCursors = c.records.oplogCursors) : Journal setup origins c' where
  head_le := by rw [hcursors]; exact h.head_le
  neck_le := by rw [hcursors]; exact h.neck_le
  pending_iff := by
    intro seq
    rw [hpending, h.pending_iff, ActiveCommit, ActiveCommit, hoplog, hcursors]
  origin := by rw [hpending]; exact h.origin
  job_iff := by rw [hpending, hjobs]; exact h.job_iff
  jobs_apart := by rw [hpending]; exact h.jobs_apart

variable {seq : DeviceSeq} {transaction : Transaction Op}

/-- Every pending row lies in the window. -/
theorem lt_tail (h : Journal setup origins c) (hget : c.pending.get seq = some transaction) :
    seq < c.records.oplogCursors.tail :=
  ((h.pending_iff seq).mp (by rw [hget]; rfl)).2.1

variable {records : SpaceRecords} {data : Data} {tail : DeviceSeq}

/-- A local transaction joins the journal. -/
theorem insert {jobs : OrdMap RepairId (RepairSpec × Sidecar)} {op : DeviceOp}
    (h : Journal setup origins c)
    (hjobs : CapturesAll (setup.logical.repairSpecs transaction) c.jobs jobs)
    (hseq : seq = c.records.oplogCursors.tail) (hcommit : isCommit op = true)
    (htail : tail.val = seq.val + 1) (hoplog : records.oplog = c.records.oplog.insert seq op)
    (hcursors : records.oplogCursors = { c.records.oplogCursors with tail := tail }) :
    Journal setup (origins.insert seq transaction)
      { c with
        data := data
        jobs := jobs
        records := records
        pending := c.pending.insert seq transaction } := by
  obtain ⟨hfree, hnodup, hframe, hcaptured⟩ := hjobs
  have hlt : seq < tail := by
    rw [Fin.lt_def]
    omega
  have hnew : ∀ other transaction', c.pending.get other = some transaction' → other ≠ seq := by
    rintro other transaction' hget rfl
    exact lt_irrefl _ (hseq ▸ h.lt_tail hget)
  -- The ids of the pending jobs are taken, those of the new ones were free.
  have hdisjoint : ∀ other transaction' spec spec',
      c.pending.get other = some transaction' → spec' ∈ setup.logical.repairSpecs transaction' →
      spec ∈ setup.logical.repairSpecs transaction → spec.id ≠ spec'.id := by
    intro other transaction' spec spec' hget hspec' hspec heq
    obtain ⟨sidecar, hjob⟩ :=
      (h.job_iff spec'.id spec').mpr ⟨other, transaction', hget, hspec', rfl⟩
    have hnone := hfree spec hspec
    rw [heq, hjob] at hnone
    cases hnone
  refine ⟨?_, ?_, ?_, ?_, ?_, ?_⟩
  · rw [hcursors]
    exact h.head_le
  · rw [hcursors]
    exact le_trans h.neck_le (hseq ▸ le_of_lt hlt)
  · intro other
    rw [ActiveCommit, hcursors, hoplog, get_insert, get_insert]
    by_cases heq : other = seq
    · subst heq
      simp only [if_true, Option.isSome_some, true_iff]
      exact ⟨hseq ▸ h.neck_le, hlt, op, rfl, hcommit⟩
    · simp only [heq, if_false]
      rw [h.pending_iff, ActiveCommit]
      refine and_congr_right fun _ => and_congr_left fun _ => ?_
      rw [← hseq, Fin.lt_def, Fin.lt_def]
      have hne : other.val ≠ seq.val := fun h => heq (Fin.ext h)
      omega
  · intro other transaction' hget
    rw [get_insert] at hget ⊢
    by_cases heq : other = seq
    · rwa [if_pos heq] at hget ⊢
    · rw [if_neg heq] at hget ⊢
      exact h.origin other transaction' hget
  · intro id spec
    constructor
    · rintro ⟨sidecar, hjob⟩
      by_cases hmem : ∃ spec' ∈ setup.logical.repairSpecs transaction, spec'.id = id
      · obtain ⟨spec', hspec', rfl⟩ := hmem
        obtain ⟨sidecar', hjob'⟩ := hcaptured spec' hspec'
        cases hjob.symm.trans hjob'
        exact ⟨seq, transaction, OrdMap.get_insert_self _ _ _, hspec', rfl⟩
      · have hold : ∀ spec' ∈ setup.logical.repairSpecs transaction, spec'.id ≠ id :=
          fun spec' hspec' heq => hmem ⟨spec', hspec', heq⟩
        rw [hframe id hold] at hjob
        obtain ⟨other, transaction', hget, hspec, hid⟩ := (h.job_iff id spec).mp ⟨sidecar, hjob⟩
        exact ⟨other, transaction', by
          rw [OrdMap.get_insert_of_ne _ _ (hnew other transaction' hget)]; exact hget, hspec, hid⟩
    · rintro ⟨other, transaction', hget, hspec, rfl⟩
      rw [get_insert] at hget
      split at hget
      · cases hget
        exact hcaptured spec hspec
      · have hjob := (h.job_iff spec.id spec).mpr ⟨other, transaction', hget, hspec, rfl⟩
        rwa [hframe spec.id fun spec' hspec' =>
          hdisjoint other transaction' spec' spec hget hspec hspec']
  · intro one two transaction₁ transaction₂ spec₁ spec₂ hget₁ hspec₁ hget₂ hspec₂ heq
    rw [get_insert] at hget₁ hget₂
    split at hget₁
    next hone =>
      split at hget₂
      next htwo => rw [hone, htwo]
      · cases hget₁
        exact absurd heq (hdisjoint two transaction₂ spec₁ spec₂ hget₂ hspec₂ hspec₁)
    · split at hget₂
      · cases hget₂
        exact absurd heq.symm (hdisjoint one transaction₁ spec₂ spec₁ hget₁ hspec₁ hspec₂)
      · exact h.jobs_apart one two transaction₁ transaction₂ spec₁ spec₂ hget₁ hspec₁ hget₂
          hspec₂ heq

variable {through : DeviceSeq}

/-- The ids that are retired with the pending rows up to a sequence. -/
theorem mem_repairIds_iff {id : RepairId} :
    id ∈ repairIds setup (c.pending.entries.takeWhile fun row => decide (row.1 ≤ through)) ↔
      ∃ seq transaction spec, c.pending.get seq = some transaction ∧ seq ≤ through ∧
        spec ∈ setup.logical.repairSpecs transaction ∧ spec.id = id := by
  simp only [repairIds, mem_map, mem_flatMap]
  constructor
  · rintro ⟨spec, ⟨⟨seq, transaction⟩, hrow, hspec⟩, hid⟩
    obtain ⟨hmem, hle⟩ := (OrdMap.mem_takeWhile_le_iff _ _ _).mp hrow
    exact ⟨seq, transaction, spec, mem_entries_iff.mp hmem, hle, hspec, hid⟩
  · rintro ⟨seq, transaction, spec, hget, hle, hspec, hid⟩
    exact ⟨spec, ⟨(seq, transaction),
      (OrdMap.mem_takeWhile_le_iff _ _ _).mpr ⟨mem_entries_iff.mpr hget, hle⟩, hspec⟩, hid⟩

/-- What an acknowledgement takes from the journal: the rows up to it. -/
theorem get_accepted :
    (c.pending.retain fun seq _ => decide (through < seq)).get seq =
      if seq ≤ through then none else c.pending.get seq := by
  rw [OrdMap.get_retain]
  by_cases hle : seq ≤ through
  · rw [if_pos hle]
    cases c.pending.get seq with
    | none => rfl
    | some transaction => simp [Option.filter_some, hle]
  · rw [if_neg hle]
    cases c.pending.get seq with
    | none => rfl
    | some transaction => simp [Option.filter_some, hle]

/-- An acknowledged prefix leaves the journal. -/
theorem accept {next : DeviceSeq} (h : Journal setup origins c) (hnext : next.val = through.val + 1)
    (hneck : c.records.oplogCursors.neck ≤ through) (htail : through < c.records.oplogCursors.tail)
    (hoplog : records.oplog = c.records.oplog.retain fun seq _ => decide (through < seq))
    (hcursors : records.oplogCursors = ⟨next, next, c.records.oplogCursors.tail⟩) :
    Journal setup origins
      { c with
        jobs := eraseAll (repairIds setup
          (c.pending.entries.takeWhile fun row => decide (row.1 ≤ through))) c.jobs
        pending := c.pending.retain fun seq _ => decide (through < seq)
        records := records } := by
  have hafter : ∀ seq : DeviceSeq, next ≤ seq ↔ ¬ seq ≤ through := by
    intro seq
    rw [Fin.le_def, Fin.le_def, hnext]
    omega
  refine ⟨?_, ?_, ?_, ?_, ?_, ?_⟩
  · rw [hcursors]
  · rw [hcursors, Fin.le_def, hnext]
    exact htail
  · intro seq
    rw [get_accepted, ActiveCommit, hcursors, hoplog, hafter, OrdMap.get_retain]
    by_cases hle : seq ≤ through
    · simp [hle]
    · have hlow : c.records.oplogCursors.neck ≤ seq := le_trans hneck (le_of_lt (not_le.mp hle))
      rw [if_neg hle, h.pending_iff, ActiveCommit]
      simp only [hlow, hle, not_false_iff, true_and]
      refine and_congr_right fun _ => exists_congr fun op => and_congr_left fun _ => ?_
      cases c.records.oplog.get seq with
      | none => rfl
      | some found => simp [Option.filter_some, not_le.mp hle]
  · intro seq transaction hget
    rw [get_accepted] at hget
    split at hget
    · cases hget
    · exact h.origin seq transaction hget
  · intro id spec
    simp only [get_eraseAll, get_accepted]
    constructor
    · rintro ⟨sidecar, hjob⟩
      split at hjob
      · cases hjob
      next hkept =>
        obtain ⟨seq, transaction, hget, hspec, hid⟩ := (h.job_iff id spec).mp ⟨sidecar, hjob⟩
        refine ⟨seq, transaction, ?_, hspec, hid⟩
        rw [if_neg fun hle => hkept
          (mem_repairIds_iff.mpr ⟨seq, transaction, spec, hget, hle, hspec, hid⟩)]
        exact hget
    · rintro ⟨seq, transaction, hget, hspec, hid⟩
      split at hget
      · cases hget
      next hle =>
        rw [if_neg]
        · exact (h.job_iff id spec).mpr ⟨seq, transaction, hget, hspec, hid⟩
        · intro hmem
          obtain ⟨other, transaction', spec', hget', hle', hspec', hid'⟩ :=
            mem_repairIds_iff.mp hmem
          have heq := h.jobs_apart seq other transaction transaction' spec spec' hget hspec hget'
            hspec' (hid.trans hid'.symm)
          exact hle (heq ▸ hle')
  · intro one two transaction₁ transaction₂ spec₁ spec₂ hget₁ hspec₁ hget₂ hspec₂ heq
    rw [get_accepted] at hget₁ hget₂
    split at hget₁
    · cases hget₁
    · split at hget₂
      · cases hget₂
      · exact h.jobs_apart one two transaction₁ transaction₂ spec₁ spec₂ hget₁ hspec₁ hget₂
          hspec₂ heq

/-- A rejected window leaves an empty journal. -/
theorem reject {target : DeviceSeq} (h : Journal setup origins c)
    (htail : tail.val = c.records.oplogCursors.tail.val + 1)
    (hoplog : records.oplog = c.records.oplog.insert c.records.oplogCursors.tail (.rollback target))
    (hcursors : records.oplogCursors =
      ⟨c.records.oplogCursors.head, c.records.oplogCursors.tail, tail⟩) :
    Journal setup origins
      { c with
        data := data
        jobs := OrdMap.empty
        pending := OrdMap.empty
        records := records } := by
  refine ⟨?_, ?_, ?_, ?_, ?_, ?_⟩
  · rw [hcursors]
    exact le_trans h.head_le h.neck_le
  · rw [hcursors, Fin.le_def]
    dsimp only
    omega
  · intro seq
    rw [ActiveCommit, hcursors, hoplog]
    constructor
    · intro hsome
      cases hsome
    · rintro ⟨hlow, hhigh, op, hget, hcommit⟩
      have heq : seq = c.records.oplogCursors.tail := by
        refine Fin.ext ?_
        rw [Fin.le_def] at hlow
        rw [Fin.lt_def] at hhigh
        dsimp only at hlow hhigh
        omega
      rw [heq, OrdMap.get_insert_self] at hget
      cases hget
      cases hcommit
  · intro seq transaction hget
    cases hget
  · intro id spec
    simp
  · intro one two transaction₁ transaction₂ spec₁ spec₂ hget₁
    cases hget₁

/-! ## What the journal is good for -/

theorem commitSeqs_eq (active : List (DeviceSeq × DeviceOp)) :
    commitSeqs active = (active.filter fun row => isCommit row.2).map Prod.fst := by
  induction active with
  | nil => rfl
  | cons row rest ih =>
    obtain ⟨seq, op⟩ := row
    cases op with
    | commit entries rangeAsserts evidence submitMode =>
      simpa [commitSeqs, isCommit] using ih
    | rollback marker => simpa [commitSeqs, isCommit] using ih

/-- The journal authenticates the active window. -/
theorem pending_eq_commitSeqs (h : Journal setup origins c)
    (hthrough : U64.checkedSub c.records.oplogCursors.tail 1 = some through) :
    c.pending.entries.map Prod.fst =
      commitSeqs (c.records.oplogRows c.records.oplogCursors.neck through) := by
  have hval := U64.checkedSub_eq_some hthrough
  rw [commitSeqs_eq]
  refine eq_of_pairwise_of_mem_iff (r := (· < ·)) (fun a b => lt_asymm)
    (pairwise_map.mpr c.pending.sorted) ?_ ?_
  · exact pairwise_map.mpr
      ((c.records.oplog.sorted.sublist filter_sublist).sublist filter_sublist)
  · intro seq
    have hpending : seq ∈ c.pending.entries.map Prod.fst ↔ (c.pending.get seq).isSome := by
      rw [mem_map, Option.isSome_iff_exists]
      constructor
      · rintro ⟨⟨seq', transaction⟩, hmem, rfl⟩
        exact ⟨transaction, mem_entries_iff.mp hmem⟩
      · rintro ⟨transaction, hget⟩
        exact ⟨(seq, transaction), mem_entries_iff.mpr hget, rfl⟩
    rw [hpending, h.pending_iff, ActiveCommit]
    simp only [mem_map, mem_filter, SpaceRecords.oplogRows, Bool.and_eq_true,
      decide_eq_true_eq]
    constructor
    · rintro ⟨hlow, hhigh, op, hget, hcommit⟩
      refine ⟨(seq, op), ⟨⟨mem_entries_iff.mpr hget, hlow, ?_⟩, hcommit⟩, rfl⟩
      rw [Fin.le_def]
      rw [Fin.lt_def] at hhigh
      change through.val + 1 = _ at hval
      dsimp only
      omega
    · rintro ⟨⟨seq', op⟩, ⟨⟨hmem, hlow, hle⟩, hcommit⟩, rfl⟩
      refine ⟨hlow, ?_, op, mem_entries_iff.mp hmem, hcommit⟩
      rw [Fin.lt_def]
      rw [Fin.le_def] at hle
      change through.val + 1 = _ at hval
      dsimp only at hle ⊢
      omega

end Journal

end Homebase.Multilite
