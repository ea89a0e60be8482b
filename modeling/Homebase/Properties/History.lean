import Homebase.Refine.Run

set_option autoImplicit false

/-!
# Properties: the history a range has

A node of the prefix tree keeps two admissions of distinct devices and one version.
They nevertheless answer every question the server asks of the history of a range:
which foreign admission is the newest, and which version has to be exceeded.  The
range assertions and the version checks of `admit` therefore decide over the whole
log, including the earlier batches of the request they belong to.
-/

namespace Homebase.Properties

open Foundation Homebase.Core Server Ledger Refine List

/-! ## Range assertions -/

/-- The checks `admit` makes of a request as a whole, before it looks at a batch. -/
structure RequestChecked (space : SpaceId) (store : Store) (now : Timestamp)
    (req : AdmissionRequest) : Prop where
  seqs : ∃ record last, device space store req.device = .ok record ∧
    checkDeviceSeqs true (record.elim 0 DeviceRecord.lastSeq) req.batches = .ok last
  writes : validateWrites space store now req.device req.evidence (requestKeys req)
    (requestRanges req) = .ok ()

/-- The assertions of a batch that the entries before it violate, as the server
reports them. -/
def violations (before : List Entry) (device : DeviceId) (batch : AdmissionBatch) :
    List RangeAssertFailure :=
  (batch.rangeAsserts.filter fun assertion =>
    decide (assertion.upto < foreignMax before (.prefixed assertion.assertPrefix) device)).map
      fun assertion => ⟨assertion.assertPrefix, assertion.upto,
        foreignMax before (.prefixed assertion.assertPrefix) device⟩

theorem assertFailures_eq_violations (before : List Entry) (device : DeviceId)
    (batch : AdmissionBatch) :
    assertFailures before device batch = violations before device batch := by
  unfold assertFailures violations
  induction batch.rangeAsserts with
  | nil => rfl
  | cons assertion rest ih =>
    rw [filterMap_cons, filter_cons, ih, assertFailure]
    by_cases h : assertion.upto < foreignMax before (.prefixed assertion.assertPrefix) device
    · simp [h]
    · simp [h]

theorem violations_ne_nil_iff {before : List Entry} {device : DeviceId} {batch : AdmissionBatch} :
    violations before device batch ≠ [] ↔ ∃ assertion ∈ batch.rangeAsserts,
      assertion.upto < foreignMax before (.prefixed assertion.assertPrefix) device := by
  simp [violations, filter_eq_nil_iff]

section Requests

variable {sha256 : Bytes → ByteArr 32} {space : SpaceId} {L : Space} {now : Timestamp}
  {req : AdmissionRequest}

/-- A request whose beginning is admitted fails on the violated assertions of the
batch after it. -/
theorem specAdmit_of_violations {pre post : List AdmissionBatch} {batch : AdmissionBatch}
    (hbatches : req.batches = pre ++ batch :: post)
    (hchecksum : req.expectedChecksum = L.checksum req.device)
    {last : DeviceSeq} (hseqs : checkDeviceSeqs true (L.lastSeq req.device) req.batches = .ok last)
    (hwrites : specWrites L.leases now req = .ok ()) {added : List Admission}
    (hadded : ∀ reject, specBatches reject req.device L.log pre = .ok added)
    (hviolated : assertFailures (events (L.log ++ added)) req.device batch ≠ []) :
    specAdmit sha256 space L now req = .error (.response (failedResponse req.batches.length
      (.rangeAssertFailed (assertFailures (events (L.log ++ added)) req.device batch))
      (L.checksum req.device))) := by
  unfold specAdmit
  rw [if_neg (not_not.mpr hchecksum), hseqs, hwrites]
  simp only [orExit, ok_bind]
  rw [hbatches, specBatches_append, hadded, ok_bind, specBatches, specBatch, if_pos hviolated]
  rfl

end Requests

/-- In every reachable state the history the server computes for a range is exact:
its greatest foreign admission and its greatest version are those of the admitted
mutations relevant to the range.  A batch that is reached after the batches before
it in its request is therefore answered with a violated assertion exactly if a
foreign admission before it is above the asserted bound. -/
theorem history_exact (sha256 : Bytes → ByteArr 32) (space : SpaceId) (verbs : List Verb) :
    let store := (run sha256 space verbs).store
    let entries := events (log sha256 space verbs)
    (∀ range device, ∃ history, effectiveHistory space store range = .ok history ∧
      history.maxExcluding device = foreignMax entries range device ∧
      history.maxVer = top AdmittedEntry.ver (relevant range) entries) ∧
    (∀ now (req : AdmissionRequest) pre batch post, req.batches = pre ++ batch :: post →
      RequestChecked space store now req →
      AllApplied (admitRequest sha256 space store now { req with batches := pre }).1 →
      let before := events
        (log sha256 space (verbs ++ [.admitRequest now { req with batches := pre }]))
      admitRequest sha256 space store now req =
          (.ok (failedResponse req.batches.length
            (.rangeAssertFailed (violations before req.device batch)) req.expectedChecksum), store) ↔
        ∃ assertion ∈ batch.rangeAsserts,
          assertion.upto < foreignMax before (.prefixed assertion.assertPrefix) req.device) := by
  obtain ⟨L, hD, hV, hlog⟩ := run_refines sha256 space verbs
  have hc := hV.logged.chronicle
  refine ⟨fun range device => ?_, fun now req pre batch post hbatches hchecked hpre => ?_⟩
  · rw [← hlog]
    exact ⟨_, effectiveHistory_spec hD.materialized hc range, effective_maxExcluding hc range device,
      effective_maxVer hc range⟩
  obtain ⟨response, L', hspec⟩ := (allApplied_iff hD hV now _).mp hpre
  -- the log before the batch is the log of the run extended by the earlier batches
  have hbefore : log sha256 space (verbs ++ [.admitRequest now { req with batches := pre }]) =
      L'.log := by
    rw [log_concat, ← hlog, log_of_admitted hD hV hspec]
  obtain ⟨hchecksum, last, added, -, -, hadded, -, rfl⟩ := specAdmit_eq_ok_iff.mp hspec
  have hlog' : (Space.append sha256 space L req.device last added).log = L.log ++ added := rfl
  rw [hbefore, hlog', hchecksum]
  dsimp only
  rw [← violations_ne_nil_iff, ← assertFailures_eq_violations]
  obtain ⟨⟨record, last, hrecord, hseqs⟩, hwrites⟩ := hchecked
  rw [device_spec hD] at hrecord
  cases hrecord
  rw [validateWrites_spec hD hV.keyed] at hwrites
  have hadmit := admit_spec hD hV now req
  constructor
  · intro hanswer
    cases hspec' : specAdmit sha256 space L now req with
    | ok r =>
      rw [hspec', hanswer] at hadmit
      have hall := (allApplied_iff hD hV now req).mpr ⟨_, _, hspec'⟩
      rw [hanswer] at hall
      exact absurd hall (not_allApplied_failed (by simp [hbatches]) _ _)
    | error exit =>
      cases exit with
      | failure failure =>
        rw [hspec', hanswer] at hadmit
        cases hadmit
      | response response' =>
        obtain ⟨-, failures, hne, rfl⟩ := specAdmit_response hspec'
        rw [hspec', hanswer] at hadmit
        simp only [failedResponse, Prod.mk.injEq, Except.ok.injEq, AdmissionResponse.mk.injEq,
          and_true, true_and, replicate_inj] at hadmit
        rcases hadmit with hzero | heq
        · simp [hbatches] at hzero
        · cases heq
          exact hne
  · intro hviolated
    rw [specAdmit_of_violations hbatches hchecksum hseqs hwrites
      (fun _ => specBatches_ok_of_ok hadded) hviolated] at hadmit
    exact hadmit

/-! ## Versions -/

/-- In the log of every reachable state the versions that bear on a key (of its
point operations and of the range deletions that cover it) strictly increase, and
a range deletion is above every earlier mutation relevant to its range, within a
batch and a request as well as across them. -/
theorem versions_increase (sha256 : Bytes → ByteArr 32) (space : SpaceId) (verbs : List Verb) :
    let entries := events (log sha256 space verbs)
    (entries.Pairwise fun d e => d.order < e.order) ∧
    entries.Pairwise fun d e =>
      (∀ key, pins key d = true → pins key e = true → d.ver < e.ver) ∧
      (∀ range, e.mutation = .deleteRange range → relevant range d = true → d.ver < e.ver) := by
  obtain ⟨L, -, hV, hlog⟩ := run_refines sha256 space verbs
  rw [← hlog]
  exact ⟨hV.logged.chronicle.sorted,
    hV.logged.versioned.imp fun {d e} habove => ⟨habove.point, habove.range⟩⟩

end Homebase.Properties
