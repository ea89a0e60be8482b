import Homebase.Ledger.Log
import Homebase.Refine.Staging

set_option autoImplicit false

/-!
# Refine: the batches of a request

The batch loop of `admit_impl` agrees with `specBatches`: a batch is accepted or
rejected, with the same error, as the log before it demands.  Range assertions
are the one check that reads only the unstaged store; it is exact all the same,
because everything a request has staged is by the device that asserts.
-/

namespace Homebase.Refine

open Foundation Homebase.Core Server Ledger List

/-! ## Range assertions -/

variable {es ss : List Entry} {device : DeviceId}

/-- Entries of the asserting device do not count against it. -/
theorem foreignMax_append_own (hown : ∀ d ∈ ss, d.device = device) (range : Range) :
    foreignMax (es ++ ss) range device = foreignMax es range device := by
  have hzero : top AdmittedEntry.seq
      (fun e => relevant range e && decide (e.device ≠ device)) ss = 0 :=
    top_eq_zero_of_forall fun d hd => by simp [hown d hd]
  rw [foreignMax, top_append, hzero]
  exact max_eq_left (Fin.zero_le _)

theorem assertFailures_append_own (hown : ∀ d ∈ ss, d.device = device) (batch : AdmissionBatch) :
    assertFailures (es ++ ss) device batch = assertFailures es device batch := by
  refine filterMap_congr fun assertion _ => ?_
  simp only [assertFailure, foreignMax_append_own hown]

section Asserts

variable {space : SpaceId} {store : Store} {es : List Entry}
  (hm : Materialized space store es) (hc : Chronicle es)

include hm hc

theorem checkAssert_spec (device : DeviceId) (failures : List RangeAssertFailure)
    (assertion : RangeAssert) : checkAssert space store device failures assertion =
      .ok (failures ++ (assertFailure es device assertion).toList) := by
  simp only [checkAssert, effectiveHistory_spec hm hc, ok_bind, effective_maxExcluding hc,
    assertFailure]
  split <;> simp

theorem rangeAssertFailures_spec (device : DeviceId) (batch : AdmissionBatch) :
    rangeAssertFailures space store device batch = .ok (assertFailures es device batch) := by
  have hloop : ∀ (assertions : List RangeAssert) (failures : List RangeAssertFailure),
      assertions.foldlM (checkAssert space store device) failures =
        .ok (failures ++ assertions.filterMap (assertFailure es device)) := by
    intro assertions
    induction assertions with
    | nil => intro failures; rw [filterMap_nil, append_nil]; rfl
    | cons assertion rest ih =>
      intro failures
      rw [foldlM_cons, checkAssert_spec hm hc, ok_bind, ih]
      cases hfail : assertFailure es device assertion <;> simp [hfail]
  exact hloop batch.rangeAsserts []

end Asserts

/-! ## The batch loop -/

/-- The header record of an admitted batch. -/
def headerOf (batch : AdmittedBatch) : AdmissionHeaderRecord where
  device := batch.device
  deviceSeq := batch.deviceSeq
  checksum := batch.checksum
  operationCount := U32.ofNat batch.entries.length

/-- The log rows of an admitted batch, in the order they are written. -/
def batchOps (space : SpaceId) (batch : AdmittedBatch) : List Op :=
  batch.entries.map (opPut space) ++
    [.put (admissionHeaderKey space batch.admissionSeq) (headerOf batch).encode]

/-- The variables of the batch loop once `added` has been accepted after `log`. -/
structure InFlight (sha256 : Bytes → ByteArr 32) (space : SpaceId) (device : DeviceId)
    (log added : List Admission) (st : Staging) : Prop where
  staged : Staged space (events log) (events added) st
  nextChecksum : st.nextChecksum = chain sha256 space device (log ++ added)
  nextAdmissionSeq : st.nextAdmissionSeq = logSeq (log ++ added)
  results : st.results = added.map fun a => .applied a.seq
  ops : st.batch.ops = (admittedFrom sha256 space log added).flatMap (batchOps space)
  logged : Logged (log ++ added)
  own : ∀ a ∈ added, a.device = device

theorem InFlight.device_of_mem {sha256 : Bytes → ByteArr 32} {space : SpaceId}
    {log added : List Admission} {st : Staging} (h : InFlight sha256 space device log added st)
    {d : Entry} (hd : d ∈ events added) : d.device = device := by
  obtain ⟨a, ha, hda⟩ := mem_events_iff.mp hd
  rw [h.logged.device_of_mem_entries (mem_append_right log ha) hda, h.own a ha]

variable {α : Type}

@[simp] theorem orExit_ok (a : α) : orExit (.ok a) = .ok a := rfl

theorem Agree.orExit {β : Type} {R : α → β → Prop} {x : Except Failure α} {y : Except Failure β}
    (h : Agree R x y) : Agree R (orExit x) (orExit y) := by
  cases x <;> cases y
  · exact congrArg Exit.failure h
  · exact h.elim
  · exact h.elim
  · exact h

section Loop

variable {sha256 : Bytes → ByteArr 32} {space : SpaceId} {store : Store} {log : List Admission}
  {req : AdmissionRequest} (current : DeviceChecksum)
  (hm : Materialized space store (events log))

include hm

variable {added : List Admission} {st : Staging}

/-- One batch: accepted or rejected as the log before it demands. -/
theorem admitBatch_spec (hf : InFlight sha256 space req.device log added st)
    (batch : AdmissionBatch) :
    Agree (fun a st' => InFlight sha256 space req.device log (added ++ [a]) st')
      (specBatch (fun failures => .response
        (failedResponse req.batches.length (.rangeAssertFailed failures) current))
        req.device (log ++ added) batch)
      (admitBatch sha256 space store req current batch st) := by
  have hc : Chronicle (events log) := by
    have := hf.logged.chronicle
    rw [events_append] at this
    exact this.of_append_left
  have hready := hf.logged.ready req.device
  rw [events_append] at hready
  have hasserts : assertFailures (events (log ++ added)) req.device batch =
      assertFailures (events log) req.device batch := by
    rw [events_append]
    exact assertFailures_append_own (fun d hd => hf.device_of_mem hd) batch
  unfold specBatch admitBatch
  rw [rangeAssertFailures_spec hm hc, hasserts, hf.nextAdmissionSeq]
  simp only [orExit_ok, ok_bind]
  split
  next => exact Agree.error _
  next hnil =>
    refine Agree.bind (Agree.refl _) fun count _ hcount heq => ?_
    subst heq
    refine Agree.bind (Agree.refl _) fun next _ hnext heq => ?_
    subst heq
    rw [events_append]
    refine Agree.bind (Agree.orExit (admitEntries_spec hm (hf.staged.update _ _ _) hready))
      fun entries st' hentries ⟨hstaged, hext⟩ => Agree.ok ?_
    replace hcount := orExit_eq_ok_iff.mp hcount
    replace hnext := orExit_eq_ok_iff.mp hnext
    replace hentries := orExit_eq_ok_iff.mp hentries
    have hsize := exists_opIndexOf_iff.mp ⟨count, hcount⟩
    rw [opIndexOf_of_lt hsize] at hcount
    cases hcount
    have haccepted : BatchAccepted req.device (log ++ added) batch :=
      ⟨hasserts.trans (not_not.mp hnil), hsize, ⟨next, hnext⟩,
        ⟨entries, by rw [events_append]; exact hentries⟩⟩
    have heq : entries = (Admission.mk (logSeq (log ++ added)) req.device batch).entries :=
      (specEntries_ok hready hentries).1
    have hchain : batch.checksum sha256 st.nextChecksum space req.device =
        chain sha256 space req.device (log ++ (added ++ [⟨logSeq (log ++ added), req.device,
          batch⟩])) := by
      rw [← append_assoc, chain_concat, if_pos rfl, hf.nextChecksum]
    refine ⟨?_, ?_, ?_, ?_, ?_, ?_, ?_⟩
    · rw [events_concat, ← heq]
      exact ⟨hstaged.events, hstaged.data, hstaged.ranges, hstaged.aggregates,
        hstaged.aggregateKeys⟩
    · exact hext.nextChecksum.trans hchain
    · rw [hext.nextAdmissionSeq, ← append_assoc]
      refine Fin.ext ?_
      rw [(haccepted.logged hf.logged).val_logSeq, val_of_addOne hnext, hf.logged.val_logSeq]
      simp only [length_append, length_singleton]
    · rw [hext.results, hf.results, map_append]
      rfl
    · have hheader : headerOf (admittedBatch sha256 space (log ++ added)
          ⟨logSeq (log ++ added), req.device, batch⟩) = ⟨req.device, batch.deviceSeq,
            batch.checksum sha256 st.nextChecksum space req.device,
            U32.ofNat batch.entries.length⟩ := by
        rw [hchain, ← append_assoc]
        simp [headerOf, admittedBatch]
      rw [admittedFrom_append, flatMap_append, ← hf.ops]
      simp only [WriteBatch.put, hext.ops, admittedFrom, flatMap_cons, flatMap_nil,
        append_nil, batchOps, hheader, heq, append_assoc]
      rfl
    · rw [← append_assoc]
      exact haccepted.logged hf.logged
    · intro a ha
      rcases List.mem_append.mp ha with ha | ha
      · exact hf.own a ha
      · rw [List.mem_singleton.mp ha]

/-- The batch loop. -/
theorem admitBatches_spec (hf : InFlight sha256 space req.device log added st)
    (batches : List AdmissionBatch) :
    Agree (fun more st' => InFlight sha256 space req.device log (added ++ more) st')
      (specBatches (fun failures => .response
        (failedResponse req.batches.length (.rangeAssertFailed failures) current))
        req.device (log ++ added) batches)
      (admitBatches sha256 space store req current batches st) := by
  induction batches generalizing added st with
  | nil => exact Agree.ok (by simpa using hf)
  | cons batch rest ih =>
    rw [specBatches, admitBatches]
    refine Agree.bind (admitBatch_spec current hm hf batch) fun a st' _ hf' => ?_
    have hrest := ih hf'
    rw [← append_assoc] at hrest
    refine Agree.bind_ok_left (hrest.mono fun more st'' hf'' => ?_)
    rwa [append_assoc] at hf''

end Loop

end Homebase.Refine
