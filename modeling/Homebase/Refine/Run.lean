import Homebase.Ledger.Steps
import Homebase.Refine.Admit
import Homebase.Refine.LeaseVerbs

set_option autoImplicit false

/-!
# Refine: whole runs

Every verb of a space is a step of the abstract space its store denotes
(`exec_step`).  By induction over the verbs, after every run the store denotes a
well-formed space whose log is the log of the run (`run_refines`).
-/

namespace Homebase.Refine

open Foundation Homebase.Core Server Ledger List

/-! ## What a response says was admitted -/

theorem applied_map {device : DeviceId} {added : List Admission}
    (hown : ∀ a ∈ added, a.device = device) :
    applied device (added.map Admission.batch)
      (added.map fun a => AdmissionResult.applied a.seq) = added := by
  induction added with
  | nil => rfl
  | cons a added ih =>
    have ha : a.device = device := hown a mem_cons_self
    rw [map_cons, map_cons, applied, ih fun b hb => hown b (mem_cons_of_mem _ hb),
      ← ha]

theorem applied_failed (device : DeviceId) (batches : List AdmissionBatch) (n : Nat)
    (error : KernelError) :
    applied device batches (List.replicate n (AdmissionResult.failed error)) = [] := by
  induction n generalizing batches with
  | zero => cases batches <;> rfl
  | succ n ih =>
    cases batches with
    | nil => rfl
    | cons batch batches => exact ih batches

section Errors

variable {reject : List RangeAssertFailure → Exit} {device : DeviceId} {exit : Exit}

theorem orExit_eq_error {α : Type} {x : Except Failure α} (h : orExit x = .error exit) :
    ∃ failure, x = .error failure ∧ exit = .failure failure := by
  cases x with
  | ok a => cases h
  | error failure => exact ⟨failure, rfl, (Except.error.inj h).symm⟩

variable {log : List Admission}

/-- How a batch is refused: by an error, or by the assertions it violates. -/
theorem specBatch_error {batch : AdmissionBatch}
    (h : specBatch reject device log batch = .error exit) :
    (∃ failure, exit = .failure failure) ∨
      (assertFailures (events log) device batch ≠ [] ∧
        exit = reject (assertFailures (events log) device batch)) := by
  unfold specBatch at h
  split at h
  next hne => exact Or.inr ⟨hne, (Except.error.inj h).symm⟩
  next =>
    refine Or.inl ?_
    rcases bind_eq_error_iff.mp h with h | ⟨_, -, h⟩
    · exact (orExit_eq_error h).imp fun _ => And.right
    rcases bind_eq_error_iff.mp h with h | ⟨_, -, h⟩
    · exact (orExit_eq_error h).imp fun _ => And.right
    rcases bind_eq_error_iff.mp h with h | ⟨_, -, h⟩
    · exact (orExit_eq_error h).imp fun _ => And.right
    · cases h

/-- How the batches of a request are refused. -/
theorem specBatches_error {batches : List AdmissionBatch}
    (h : specBatches reject device log batches = .error exit) :
    (∃ failure, exit = .failure failure) ∨
      ∃ failures, failures ≠ [] ∧ exit = reject failures := by
  induction batches generalizing log with
  | nil => cases h
  | cons batch rest ih =>
    rw [specBatches] at h
    rcases bind_eq_error_iff.mp h with h | ⟨a, -, h⟩
    · exact (specBatch_error h).imp_right fun h => ⟨_, h⟩
    rcases bind_eq_error_iff.mp h with h | ⟨more, -, h⟩
    · exact ih h
    · cases h

/-- A request answered without being admitted has failed as a whole, on the violated
assertions of one of its batches. -/
theorem specAdmit_response {sha256 : Bytes → ByteArr 32} {space : SpaceId} {L : Space}
    {now : Timestamp} {req : AdmissionRequest} {response : AdmissionResponse}
    (h : specAdmit sha256 space L now req = .error (.response response)) :
    req.batches ≠ [] ∧ ∃ failures, failures ≠ [] ∧
      response = failedResponse req.batches.length (.rangeAssertFailed failures)
        (L.checksum req.device) := by
  unfold specAdmit at h
  split at h
  next => cases h
  next =>
    rcases bind_eq_error_iff.mp h with h | ⟨_, -, h⟩
    · obtain ⟨_, -, h⟩ := orExit_eq_error h
      cases h
    rcases bind_eq_error_iff.mp h with h | ⟨_, -, h⟩
    · obtain ⟨_, -, h⟩ := orExit_eq_error h
      cases h
    rcases bind_eq_error_iff.mp h with h | ⟨_, -, h⟩
    · refine ⟨fun hnil => ?_, ?_⟩
      · rw [hnil] at h
        cases h
      rcases specBatches_error h with ⟨_, h⟩ | ⟨failures, hne, h⟩
      · cases h
      · exact ⟨failures, hne, Exit.response.inj h⟩
    · cases h

end Errors

/-! ## One verb -/

section Step

variable {sha256 : Bytes → ByteArr 32} {space : SpaceId} {L : Space} {store : Store}

/-- Admission: what it answers, and what its store denotes afterwards. -/
theorem admit_spec (hD : Denotes sha256 space store L) (hV : L.Valid sha256 space) (now : Timestamp)
    (req : AdmissionRequest) :
    match specAdmit sha256 space L now req with
    | .ok (response, L') => (admitRequest sha256 space store now req).1 = .ok response ∧
        Denotes sha256 space (admitRequest sha256 space store now req).2 L'
    | .error (.response response) => admitRequest sha256 space store now req = (.ok response, store)
    | .error (.failure failure) => admitRequest sha256 space store now req = (.error failure, store) := by
  have h := admitImpl_spec hD hV now req
  cases hspec : specAdmit sha256 space L now req with
  | ok r =>
    rw [hspec] at h
    obtain ⟨r', himpl, heq, hD'⟩ := h.of_ok_left
    simp only [admitRequest, himpl]
    exact ⟨congrArg Except.ok heq.symm, hD'⟩
  | error exit =>
    rw [hspec] at h
    have himpl := h.of_error_left
    cases exit <;> simp [admitRequest, himpl]

/-- Every batch of an answered request was applied. -/
def AllApplied (answer : Except Failure AdmissionResponse) : Prop :=
  ∃ response, answer = .ok response ∧
    ∀ result ∈ response.results, ∃ seq, result = AdmissionResult.applied seq

theorem not_allApplied_failed {n : Nat} (hn : n ≠ 0) (error : KernelError)
    (checksum : DeviceChecksum) : ¬ AllApplied (.ok (failedResponse n error checksum)) := by
  rintro ⟨response, heq, hall⟩
  cases heq
  obtain ⟨seq, hseq⟩ := hall (.failed error) (mem_replicate.mpr ⟨hn, rfl⟩)
  cases hseq

/-- The requests whose batches are all applied are those the ledger admits. -/
theorem allApplied_iff (hD : Denotes sha256 space store L) (hV : L.Valid sha256 space)
    (now : Timestamp) (req : AdmissionRequest) :
    AllApplied (admitRequest sha256 space store now req).1 ↔
      ∃ response L', specAdmit sha256 space L now req = .ok (response, L') := by
  have h := admit_spec hD hV now req
  cases hspec : specAdmit sha256 space L now req with
  | ok r =>
    obtain ⟨response, L'⟩ := r
    rw [hspec] at h
    refine ⟨fun _ => ⟨response, L', rfl⟩, fun _ => ⟨response, h.1, ?_⟩⟩
    obtain ⟨-, last, added, -, -, -, rfl, -⟩ := specAdmit_eq_ok_iff.mp hspec
    intro result hresult
    obtain ⟨a, -, rfl⟩ := mem_map.mp hresult
    exact ⟨a.seq, rfl⟩
  | error exit =>
    rw [hspec] at h
    refine ⟨fun hall => ?_, fun ⟨_, _, hok⟩ => by cases hok⟩
    cases exit with
    | failure failure =>
      rw [h] at hall
      obtain ⟨_, heq, -⟩ := hall
      cases heq
    | response response =>
      obtain ⟨hne, failures, -, rfl⟩ := specAdmit_response hspec
      rw [h] at hall
      exact absurd hall (not_allApplied_failed (by simpa using hne) _ _)

variable {state : SpaceState}

/-- An admitted request extends the log by what its response applied. -/
theorem log_of_admitted (hD : Denotes sha256 space state.store L) (hV : L.Valid sha256 space)
    {now : Timestamp} {req : AdmissionRequest} {response : AdmissionResponse} {L' : Space}
    (hspec : specAdmit sha256 space L now req = .ok (response, L')) :
    L.log ++ admissions sha256 space state (.admitRequest now req) = L'.log := by
  have hresponse := admit_spec hD hV now req
  rw [hspec] at hresponse
  obtain ⟨-, last, added, -, -, hadded, rfl, rfl⟩ := specAdmit_eq_ok_iff.mp hspec
  have happend := specBatches_appends hV.logged hadded
  simp only [admissions, hresponse.1, appliedResponse, ← happend.batches, applied_map happend.own]
  rfl

/-- Every verb is a step of the space its store denotes. -/
theorem exec_step (hD : Denotes sha256 space state.store L) (hV : L.Valid sha256 space)
    (verb : Verb) :
    ∃ L', Denotes sha256 space (exec sha256 space state verb).store L' ∧
      Step sha256 space verb L L' ∧ L'.log = L.log ++ admissions sha256 space state verb := by
  cases verb with
  | acquire now req =>
    rcases acquire_spec hD hV now req with ⟨_, _, looked, -, -, hD'⟩ | ⟨_, -, -, heq⟩ |
      ⟨_, -, hG, hroom, hD'⟩
    · exact ⟨_, hD', Step.contend looked, (append_nil _).symm⟩
    · refine ⟨L, ?_, Step.idle _ L, (append_nil _).symm⟩
      rw [exec, heq]
      exact hD
    · exact ⟨_, hD', Step.acquire hG hroom, (append_nil _).symm⟩
  | renew now req =>
    exact ⟨_, renew_spec hD hV.keyed now req, Step.renew L now req, (append_nil _).symm⟩
  | release now req =>
    exact ⟨_, release_spec hD hV.keyed now req, Step.release L now req, (append_nil _).symm⟩
  | listLeases now req =>
    exact ⟨_, listLeases_spec hD hV.keyed now req, Step.listLeases L now req,
      (append_nil _).symm⟩
  | admitRequest now req =>
    have h := admit_spec hD hV now req
    cases hspec : specAdmit sha256 space L now req with
    | ok r =>
      obtain ⟨response, L'⟩ := r
      rw [hspec] at h
      exact ⟨L', h.2, Step.admitRequest hspec, (log_of_admitted hD hV hspec).symm⟩
    | error exit =>
      rw [hspec] at h
      cases exit with
      | failure failure =>
        refine ⟨L, ?_, Step.idle _ L, ?_⟩
        · simp only [exec, h]
          exact hD
        · simp [admissions, h]
      | response response =>
        obtain ⟨-, failures, -, rfl⟩ := specAdmit_response hspec
        refine ⟨L, ?_, Step.idle _ L, ?_⟩
        · simp only [exec, h]
          exact hD
        · simp [admissions, h, failedResponse, applied_failed]
  | pull req => exact ⟨L, hD, Step.idle _ L, (append_nil _).symm⟩
  | get req => exact ⟨L, hD, Step.idle _ L, (append_nil _).symm⟩
  | list req => exact ⟨L, hD, Step.idle _ L, (append_nil _).symm⟩
  | readAt req => exact ⟨L, hD, Step.idle _ L, (append_nil _).symm⟩

end Step

/-! ## Runs -/

section Runs

variable (sha256 : Bytes → ByteArr 32) (space : SpaceId)

/-- The space a run leads to: what its store denotes, with the log of the run. -/
structure Reaches (verbs : List Verb) (L : Space) : Prop where
  denotes : Denotes sha256 space (run sha256 space verbs).store L
  valid : L.Valid sha256 space
  log : L.log = log sha256 space verbs

/-- Every run leads to a well-formed space. -/
theorem run_refines (verbs : List Verb) : ∃ L, Reaches sha256 space verbs L := by
  induction verbs using List.reverseRecOn with
  | nil => exact ⟨Space.initial, Denotes.initial, Space.Valid.initial, rfl⟩
  | append_singleton verbs verb ih =>
    obtain ⟨L, hD, hV, hlog⟩ := ih
    obtain ⟨L', hD', hstep, hlog'⟩ := exec_step hD hV verb
    refine ⟨L', ?_, hstep.valid hV, ?_⟩
    · rw [run_concat]
      exact hD'
    · rw [log_concat, hlog', hlog]

variable {sha256 space} {verbs : List Verb}

/-- Whatever follows a run keeps the ids that were given out. -/
theorem run_keeps {L : Space} (hL : Reaches sha256 space verbs L) {id : LeaseId}
    (hid : id < L.record.nextLeaseId) (later : List Verb) :
    ∃ L', Reaches sha256 space (verbs ++ later) L' ∧ id < L'.record.nextLeaseId ∧
      Keeps L.leases L'.leases id := by
  induction later using List.reverseRecOn with
  | nil => exact ⟨L, by rwa [append_nil], hid, Or.inr rfl⟩
  | append_singleton later verb ih =>
    obtain ⟨L₁, ⟨hD, hV, hlog⟩, hlt, hkeeps⟩ := ih
    obtain ⟨L', hD', hstep, hlog'⟩ := exec_step hD hV verb
    obtain ⟨hlt', hkeeps'⟩ := hstep.keeps hlt
    rw [← append_assoc]
    refine ⟨L', ⟨by rwa [run_concat], hstep.valid hV, by rw [log_concat, hlog', hlog]⟩, hlt',
      hkeeps'.elim Or.inl fun heq => ?_⟩
    rwa [Keeps, heq]

/-- The fences are up after every run whose clock never goes back. -/
theorem run_fenced (hclock : (verbs.filterMap Verb.now?).Pairwise (· ≤ ·)) {now : Timestamp}
    (hnow : ∀ t ∈ verbs.filterMap Verb.now?, t ≤ now) :
    ∃ L, Reaches sha256 space verbs L ∧ Fenced now L := by
  -- the fences hold at the last clock reading, and so at every later one
  have hrun : ∃ L last, Reaches sha256 space verbs L ∧ Fenced last L ∧
      ∀ t, (∀ t' ∈ verbs.filterMap Verb.now?, t' ≤ t) → last ≤ t := by
    clear hnow
    induction verbs using List.reverseRecOn with
    | nil =>
      refine ⟨Space.initial, 0, ⟨Denotes.initial, Space.Valid.initial, rfl⟩, ?_, ?_⟩
      · intro id record h
        cases h
      · intro t _
        exact Fin.zero_le t
    | append_singleton verbs verb ih =>
      rw [filterMap_append, pairwise_append] at hclock
      obtain ⟨L, last, ⟨hD, hV, hlog⟩, hF, hlast⟩ := ih hclock.1
      obtain ⟨L', hD', hstep, hlog'⟩ := exec_step hD hV verb
      have hmono : ∀ t, verb.now? = some t → last ≤ t := fun t ht =>
        hlast t fun t' ht' => hclock.2.2 t' ht' t (by simp [ht])
      refine ⟨L', verb.now?.getD last, ⟨?_, hstep.valid hV, ?_⟩,
        hstep.fenced hV hF hmono, fun t ht => ?_⟩
      · rw [run_concat]
        exact hD'
      · rw [log_concat, hlog', hlog]
      · cases hv : verb.now? with
        | none => exact hlast t fun t' ht' => ht t' (by simp [ht'])
        | some t' => exact ht t' (by simp [hv])
  obtain ⟨L, last, hreach, hF, hlast⟩ := hrun
  exact ⟨L, hreach, hF.derive (hlast now hnow) (Derived.of_sub fun _ _ h => h)⟩

end Runs

end Homebase.Refine
