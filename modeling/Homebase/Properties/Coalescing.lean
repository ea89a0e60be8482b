import Homebase.Properties.Leases

set_option autoImplicit false

/-!
# Properties: grouping batches into one request is unobservable

A request of several batches stages them over one store, while single-batch
requests re-read the store in between.  Both denote the same space, and a space has
one store, so the two ways to submit consecutive batches cannot be told apart.
-/

namespace Homebase.Properties

open Foundation Homebase.Core Server Ledger Refine List

/-! ## The two ways to submit -/

section Submit

variable (sha256 : Bytes → ByteArr 32) (space : SpaceId) (now : Timestamp) (device : DeviceId)
  (evidence : List LeaseId)

/-- Submits the batches one request each, every request with the checksum the one
before it returned; gives the last checksum, the admission sequences and the store,
or nothing if a request is not applied. -/
def admitEach : Store → DeviceChecksum → List AdmissionBatch →
    Option (DeviceChecksum × List AdmissionSeq × Store)
  | store, current, [] => some (current, [], store)
  | store, current, batch :: rest =>
      match admitRequest sha256 space store now ⟨device, current, evidence, [batch]⟩ with
      | (.ok ⟨checksum, [.applied seq]⟩, store') =>
          (admitEach store' checksum rest).map fun r => (r.1, seq :: r.2.1, r.2.2)
      | _ => none

end Submit

/-! ## Grouping at the level of the ledger -/

variable {leases : Leases} {now : Timestamp}

theorem specWrites_eq_ok_iff {req : AdmissionRequest} :
    specWrites leases now req = .ok () ↔
      ∀ entry ∈ req.batches.flatMap AdmissionBatch.entries,
        (∀ key, entry.mutation.pointKey = some key → specKey leases now req.device key = .ok ()) ∧
        ∀ range, entry.mutation.range = some range →
          specRange leases now req.device range = .ok () := by
  rw [specWrites, bind_eq_ok_iff]
  constructor
  · rintro ⟨_, hkeys, hranges⟩ entry hentry
    exact ⟨fun key hkey => forM_eq_ok_iff.mp hkeys key (mem_filterMap.mpr ⟨entry, hentry, hkey⟩),
      fun range hrange => forM_eq_ok_iff.mp hranges range
        (mem_filterMap.mpr ⟨entry, hentry, hrange⟩)⟩
  · intro h
    refine ⟨(), forM_eq_ok_iff.mpr fun key hkey => ?_, forM_eq_ok_iff.mpr fun range hrange => ?_⟩
    · obtain ⟨entry, hentry, hkey⟩ := mem_filterMap.mp hkey
      exact (h entry hentry).1 key hkey
    · obtain ⟨entry, hentry, hrange⟩ := mem_filterMap.mp hrange
      exact (h entry hentry).2 range hrange

theorem specWrites_cons_iff (current' : DeviceChecksum) {device : DeviceId}
    {current : DeviceChecksum} {evidence : List LeaseId} {batch : AdmissionBatch}
    {rest : List AdmissionBatch} :
    specWrites leases now ⟨device, current, evidence, batch :: rest⟩ = .ok () ↔
      specWrites leases now ⟨device, current, evidence, [batch]⟩ = .ok () ∧
      specWrites leases now ⟨device, current', evidence, rest⟩ = .ok () := by
  simp only [specWrites_eq_ok_iff, flatMap_cons, flatMap_nil, append_nil,
    forall_mem_append]

section Group

variable {sha256 : Bytes → ByteArr 32} {space : SpaceId} {L : Space}

/-- Appending in two steps is appending at once. -/
theorem append_append (device : DeviceId) (last last' : DeviceSeq) (first more : List Admission) :
    (L.append sha256 space device last first).append sha256 space device last' more =
      L.append sha256 space device last' (first ++ more) := by
  simp only [Space.append, Function.update_idem, append_assoc, length_append,
    Space.record, Option.getD_some, Nat.add_assoc]

theorem lastSeq_append (device : DeviceId) (last : DeviceSeq) (added : List Admission) :
    (L.append sha256 space device last added).lastSeq device = last := by
  simp [Space.append, Space.lastSeq]

theorem checksum_append (device : DeviceId) (last : DeviceSeq) (added : List Admission) :
    (L.append sha256 space device last added).checksum device =
      chain sha256 space device (L.log ++ added) := by
  simp [Space.append, Space.checksum]

/-- A group is admitted exactly if its first batch is, and then the others after it. -/
theorem specAdmit_cons_iff {now : Timestamp} {device : DeviceId} {current : DeviceChecksum}
    {evidence : List LeaseId} {batch : AdmissionBatch} {rest : List AdmissionBatch}
    (hcons : Consecutive (batch :: rest)) {checksum : DeviceChecksum}
    {results : List AdmissionResult} {L' : Space} :
    specAdmit sha256 space L now ⟨device, current, evidence, batch :: rest⟩ =
        .ok (⟨checksum, results⟩, L') ↔
      ∃ middle seq more L₁, results = .applied seq :: more ∧
        specAdmit sha256 space L now ⟨device, current, evidence, [batch]⟩ =
          .ok (⟨middle, [.applied seq]⟩, L₁) ∧
        specAdmit sha256 space L₁ now ⟨device, middle, evidence, rest⟩ =
          .ok (⟨checksum, more⟩, L') := by
  have hrest : ∀ first, checkDeviceSeqs first batch.deviceSeq rest = _ :=
    fun first => checkDeviceSeqs_of_consecutive hcons
  constructor
  · intro h
    obtain ⟨hcurrent, last, added, hseqs, hwrites, hadded, hresponse, rfl⟩ :=
      specAdmit_eq_ok_iff.mp h
    obtain ⟨a, hbatch, hadded⟩ := of_bind hadded
    obtain ⟨hwrites₁, hwrites₂⟩ :=
      (specWrites_cons_iff (chain sha256 space device (L.log ++ [a]))).mp hwrites
    obtain ⟨more, hmore, hadded⟩ := of_bind hadded
    cases hadded
    obtain ⟨rfl, rfl⟩ := AdmissionResponse.mk.inj hresponse
    rw [checkDeviceSeqs] at hseqs
    split at hseqs
    next => cases hseqs
    next hlt =>
      refine ⟨chain sha256 space device (L.log ++ [a]), a.seq, _,
        L.append sha256 space device batch.deviceSeq [a], rfl, ?_, ?_⟩
      · refine specAdmit_eq_ok_iff.mpr ⟨hcurrent, batch.deviceSeq, [a], ?_, hwrites₁, ?_, rfl, rfl⟩
        · rw [checkDeviceSeqs, if_neg hlt, if_pos rfl, checkDeviceSeqs]
        · rw [specBatches, specBatch_eq_ok_iff.mpr (specBatch_eq_ok_iff.mp hbatch)]
          rfl
      · refine specAdmit_eq_ok_iff.mpr ⟨(checksum_append device _ _).symm, last, more, ?_, hwrites₂,
          specBatches_ok_of_ok hmore, ?_, (append_append device batch.deviceSeq last [a] more).symm⟩
        · rw [if_pos rfl, hrest] at hseqs
          rw [lastSeq_append, hrest, hseqs]
        · simp [appliedResponse, Space.append]
  · rintro ⟨middle, seq, more, L₁, rfl, h₁, h₂⟩
    obtain ⟨hcurrent, last₁, added₁, hseqs₁, hwrites₁, hadded₁, hresponse₁, rfl⟩ :=
      specAdmit_eq_ok_iff.mp h₁
    obtain ⟨-, last, added, hseqs₂, hwrites₂, hadded₂, hresponse₂, rfl⟩ :=
      specAdmit_eq_ok_iff.mp h₂
    obtain ⟨a, hbatch, hadded₁⟩ := of_bind hadded₁
    cases hadded₁
    obtain ⟨rfl, hseq⟩ := AdmissionResponse.mk.inj hresponse₁
    obtain ⟨rfl, rfl⟩ := AdmissionResponse.mk.inj hresponse₂
    refine specAdmit_eq_ok_iff.mpr ⟨hcurrent, last, a :: added, ?_,
      (specWrites_cons_iff _).mpr ⟨hwrites₁, hwrites₂⟩, ?_, ?_, append_append device _ _ _ _⟩
    · rw [checkDeviceSeqs] at hseqs₁ ⊢
      split at hseqs₁
      next => cases hseqs₁
      next hlt =>
        cases hseqs₁
        rw [lastSeq_append, hrest] at hseqs₂
        rw [if_neg hlt, if_pos rfl, hrest, hseqs₂]
    · have hmore : ∀ reject, specBatches reject device (L.log ++ [a]) rest = .ok added :=
        fun _ => specBatches_ok_of_ok hadded₂
      rw [specBatches, specBatch_eq_ok_iff.mpr (specBatch_eq_ok_iff.mp hbatch), ok_bind, hmore]
      rfl
    · have hseq : seq = a.seq := by simpa using hseq
      simp [appliedResponse, Space.append, hseq]

end Group

/-! ## Grouping at the server -/

section Server

variable {sha256 : Bytes → ByteArr 32} {space : SpaceId} {now : Timestamp} {store store' : Store}
  {L : Space} {req : AdmissionRequest} {checksum : DeviceChecksum}

/-- An applied request and its store, in terms of the ledger. -/
theorem admitRequest_eq_applied_iff (hD : Denotes sha256 space store L) (hV : L.Valid sha256 space)
    (seqs : List AdmissionSeq) :
    admitRequest sha256 space store now req = (.ok ⟨checksum, seqs.map .applied⟩, store') ↔
      ∃ L', specAdmit sha256 space L now req = .ok (⟨checksum, seqs.map .applied⟩, L') ∧
        Denotes sha256 space store' L' := by
  have hspec := admit_spec hD hV now req
  constructor
  · intro h
    have hall : AllApplied (admitRequest sha256 space store now req).1 := by
      rw [h]
      refine ⟨_, rfl, fun result hresult => ?_⟩
      obtain ⟨seq, -, rfl⟩ := mem_map.mp hresult
      exact ⟨seq, rfl⟩
    obtain ⟨response, L', hok⟩ := (allApplied_iff hD hV now req).mp hall
    rw [hok, h] at hspec
    obtain ⟨hresponse, hD'⟩ := hspec
    cases hresponse
    exact ⟨L', hok, hD'⟩
  · rintro ⟨L', hok, hD'⟩
    rw [hok] at hspec
    exact Prod.ext hspec.1 (hspec.2.unique hD')

/-- An admitted request gives every batch a sequence. -/
theorem results_of_admitted {L' : Space} (hV : L.Valid sha256 space) {response : AdmissionResponse}
    (h : specAdmit sha256 space L now req = .ok (response, L')) :
    ∃ seqs : List AdmissionSeq, response.results = seqs.map .applied ∧
      seqs.length = req.batches.length := by
  obtain ⟨-, last, added, -, -, hadded, rfl, -⟩ := specAdmit_eq_ok_iff.mp h
  refine ⟨added.map Admission.seq, ?_, ?_⟩
  · rw [appliedResponse, map_map]
    rfl
  · rw [← (specBatches_appends hV.logged hadded).batches, length_map, length_map]

/-- Submitting one by one, in terms of the ledger. -/
theorem admitEach_eq_some_iff {device : DeviceId} {evidence : List LeaseId}
    {batches : List AdmissionBatch} (hne : batches ≠ []) (hcons : Consecutive batches)
    (hD : Denotes sha256 space store L) (hV : L.Valid sha256 space) {current : DeviceChecksum}
    {seqs : List AdmissionSeq} :
    admitEach sha256 space now device evidence store current batches =
        some (checksum, seqs, store') ↔
      ∃ L', specAdmit sha256 space L now ⟨device, current, evidence, batches⟩ =
          .ok (⟨checksum, seqs.map .applied⟩, L') ∧ Denotes sha256 space store' L' := by
  induction batches generalizing store L current seqs with
  | nil => exact absurd rfl hne
  | cons batch rest ih =>
    rw [admitEach]
    constructor
    · intro h
      split at h
      next middle seq store₁ hone =>
        obtain ⟨⟨c, seqs', s⟩, hrest, heq⟩ := Option.map_eq_some_iff.mp h
        cases heq
        obtain ⟨L₁, hok₁, hD₁⟩ := (admitRequest_eq_applied_iff hD hV [seq]).mp hone
        cases rest with
        | nil =>
          cases hrest
          exact ⟨L₁, hok₁, hD₁⟩
        | cons next rest =>
          obtain ⟨L', hok₂, hD'⟩ := (ih (cons_ne_nil _ _) (isChain_cons_cons.mp hcons).2
            hD₁ ((Step.admitRequest hok₁).valid hV)).mp hrest
          exact ⟨L', (specAdmit_cons_iff hcons).mpr ⟨middle, seq, _, L₁, rfl, hok₁, hok₂⟩, hD'⟩
      next => cases h
    · rintro ⟨L', hok, hD'⟩
      cases rest with
      | nil =>
        obtain ⟨seqs', hresults, hlength⟩ := results_of_admitted hV hok
        obtain ⟨seq, rfl⟩ := length_eq_one_iff.mp hlength
        obtain ⟨seq', rest', rfl, hseq, hnil⟩ := map_eq_cons_iff.mp hresults
        cases hseq
        cases map_eq_nil_iff.mp hnil
        have hone := (admitRequest_eq_applied_iff hD hV _).mpr ⟨L', hok, hD'⟩
        simp only [map_cons, map_nil] at hone
        simp only [hone, admitEach, Option.map_some]
      | cons next rest =>
        obtain ⟨middle, seq, more, L₁, hresults, hok₁, hok₂⟩ := (specAdmit_cons_iff hcons).mp hok
        obtain ⟨seq', seqs', rfl, hseq, rfl⟩ := map_eq_cons_iff.mp hresults
        cases hseq
        have hspec := admit_spec hD hV now ⟨device, current, evidence, [batch]⟩
        rw [hok₁] at hspec
        obtain ⟨store₁, hD₁⟩ : ∃ store₁, Denotes sha256 space store₁ L₁ := ⟨_, hspec.2⟩
        have hone := (admitRequest_eq_applied_iff hD hV [seq]).mpr ⟨L₁, hok₁, hD₁⟩
        have hrest := (ih (cons_ne_nil _ _) (isChain_cons_cons.mp hcons).2
          hD₁ ((Step.admitRequest hok₁).valid hV)).mpr ⟨L', hok₂, hD'⟩
        simp only [map_cons, map_nil] at hone
        simp only [hone, hrest, Option.map_some]

/-- In every reachable state, consecutive batches submitted as one request are all
applied exactly if they are when submitted one by one; checksum, admission sequences
and store are then the same.  Otherwise the request leaves the store as it was. -/
theorem grouping_unobservable (sha256 : Bytes → ByteArr 32) (space : SpaceId) (verbs : List Verb)
    (now : Timestamp) (device : DeviceId) (evidence : List LeaseId) (current : DeviceChecksum)
    (batches : List AdmissionBatch) (hne : batches ≠ []) (hcons : Consecutive batches) :
    let store := (run sha256 space verbs).store
    let request : AdmissionRequest := ⟨device, current, evidence, batches⟩
    (∀ checksum seqs store',
      admitRequest sha256 space store now request = (.ok ⟨checksum, seqs.map .applied⟩, store') ↔
        admitEach sha256 space now device evidence store current batches =
          some (checksum, seqs, store')) ∧
    (admitEach sha256 space now device evidence store current batches = none →
      ¬ AllApplied (admitRequest sha256 space store now request).1 ∧
        (admitRequest sha256 space store now request).2 = store) := by
  obtain ⟨L, hD, hV, -⟩ := run_refines sha256 space verbs
  have hiff : ∀ checksum seqs store', admitRequest sha256 space (run sha256 space verbs).store now
      ⟨device, current, evidence, batches⟩ = (.ok ⟨checksum, seqs.map .applied⟩, store') ↔
        admitEach sha256 space now device evidence (run sha256 space verbs).store current batches =
          some (checksum, seqs, store') := fun checksum seqs store' =>
    (admitRequest_eq_applied_iff hD hV seqs).trans (admitEach_eq_some_iff hne hcons hD hV).symm
  refine ⟨hiff, fun hnone => ?_⟩
  have hnot : ¬ AllApplied (admitRequest sha256 space (run sha256 space verbs).store now
      ⟨device, current, evidence, batches⟩).1 := by
    intro hall
    obtain ⟨⟨checksum, results⟩, L', hok⟩ := (allApplied_iff hD hV now _).mp hall
    obtain ⟨seqs, rfl, -⟩ := results_of_admitted hV hok
    have hspec := admit_spec hD hV now ⟨device, current, evidence, batches⟩
    rw [hok] at hspec
    have hsome := (admitEach_eq_some_iff hne hcons hD hV).mpr ⟨L', hok, hspec.2⟩
    rw [hnone] at hsome
    cases hsome
  refine ⟨hnot, ?_⟩
  have hspec := admit_spec hD hV now ⟨device, current, evidence, batches⟩
  split at hspec
  next response L' hok => exact absurd ((allApplied_iff hD hV now _).mpr ⟨_, _, hok⟩) hnot
  next => rw [hspec]
  next => rw [hspec]

/-- Two deletions of one key, submitted together or one after the other. -/
def sampleDeletes : List AdmissionBatch :=
  [⟨1, [], [⟨.delete sampleKey, ⟨sampleWriter, 1, 1, 0⟩, ⟨.aeadV1, .zero 24, .zero 16, []⟩⟩]⟩,
    ⟨2, [], [⟨.delete sampleKey, ⟨sampleWriter, 2, 2, 0⟩, ⟨.aeadV1, .zero 24, .zero 16, []⟩⟩]⟩]

theorem grouping_sampleDeletes :
    sampleDeletes ≠ [] ∧ Consecutive sampleDeletes ∧ ∀ checksum seqs store',
      admitRequest (fun _ => .zero 32) (.zero 16) (run (fun _ => .zero 32) (.zero 16) []).store 3
          ⟨sampleWriter, DeviceChecksum.empty, [], sampleDeletes⟩ =
            (.ok ⟨checksum, seqs.map .applied⟩, store') ↔
        admitEach (fun _ => .zero 32) (.zero 16) 3 sampleWriter []
          (run (fun _ => .zero 32) (.zero 16) []).store DeviceChecksum.empty sampleDeletes =
            some (checksum, seqs, store') := by
  have hne : sampleDeletes ≠ [] := cons_ne_nil _ _
  have hcons : Consecutive sampleDeletes :=
    isChain_cons_cons.mpr ⟨rfl, isChain_singleton _⟩
  exact ⟨hne, hcons, (grouping_unobservable _ _ [] 3 sampleWriter [] DeviceChecksum.empty
    sampleDeletes hne hcons).1⟩

end Server

end Homebase.Properties
