import Homebase.Refine.Run
import Homebase.Ledger.Panics

set_option autoImplicit false

/-!
# Properties: reads and counts are those of the replayed log

The store never replays its log.  Over every run of a space, `get`, `list` and
`read_at` nevertheless return what a replay of the admitted batches in admission
order would show, and the lazily maintained live counts are the number of keys a
replay would show.
-/

namespace Homebase.Properties

open Foundation Homebase.Core Server Ledger Refine List

/-! ## Visibility -/

theorem applied_eq_nil {device : DeviceId} {batches : List AdmissionBatch}
    {results : List AdmissionResult} (h : ∀ seq, AdmissionResult.applied seq ∉ results) :
    applied device batches results = [] := by
  induction results generalizing batches with
  | nil => cases batches <;> rfl
  | cons result results ih =>
    have hrest := fun batches => @ih batches fun seq hseq => h seq (mem_cons_of_mem _ hseq)
    cases batches with
    | nil => rfl
    | cons batch batches =>
      cases result with
      | applied seq => exact absurd mem_cons_self (h seq)
      | failed error => exact hrest batches

variable {sha256 : Bytes → ByteArr 32} {space : SpaceId} {now : Timestamp} {req : AdmissionRequest}

/-- A request none of whose batches is applied leaves the log alone. -/
theorem log_concat_of_rejected {verbs : List Verb}
    (h : ∀ response, (admitRequest sha256 space (run sha256 space verbs).store now req).1 = .ok response →
      ∀ seq, AdmissionResult.applied seq ∉ response.results) :
    log sha256 space (verbs ++ [.admitRequest now req]) = log sha256 space verbs := by
  rw [log_concat, admissions]
  split
  next response hresponse => rw [applied_eq_nil (h response hresponse), append_nil]
  next => rw [append_nil]

variable {store : Store} {L : Space}

theorem readAt_snapshots (hD : Denotes sha256 space store L) (hV : L.Valid sha256 space)
    (ranges : List Range) :
    readAt space store ⟨ranges.map fun range => ⟨range, none⟩⟩ =
      .ok ⟨U64.ofNat L.log.length,
        ranges.map fun range => .snapshot (listUnder (replay (events L.log)) range)⟩ := by
  have hcut : ∀ cursor ∈ ranges.map (fun range => (⟨range, none⟩ : RangeCursor)),
      readCut space store L.record.admissionHighWater cursor =
        .ok (RangeCut.snapshot (listUnder (replay (events L.log)) cursor.range)) := by
    intro cursor hcursor
    obtain ⟨range, -, rfl⟩ := List.mem_map.mp hcursor
    rw [readCut]
    simp only [snapshot_spec hD.materialized hV.logged.chronicle hD.known hV.logged.live, Except.map]
  rw [readAt, counters_spec hD, ok_bind, mapM_eq_ok hcut, map_map, hV.highWater]
  rfl

/-- Reads show the replay of the admitted batches in admission order, where a key
is visible exactly if its last point operation is a Set and no later range
deletion covers it.  Requests that were not applied contribute nothing. -/
theorem reads_eq_replay (sha256 : Bytes → ByteArr 32) (space : SpaceId) (verbs : List Verb) :
    let store := (run sha256 space verbs).store
    let entries := events (log sha256 space verbs)
    (entries.Pairwise fun a b => a.order < b.order) ∧
    (∀ keys, Server.get space store ⟨keys⟩ = .ok ⟨keys.map (replay entries).get⟩) ∧
    (∀ listPrefix, list space store ⟨listPrefix, none, none⟩ =
      .ok ⟨listUnder (replay entries) (.prefixed listPrefix), false⟩) ∧
    (∀ ranges : List Range, readAt space store ⟨ranges.map fun range => ⟨range, none⟩⟩ =
      .ok ⟨U64.ofNat (log sha256 space verbs).length,
        ranges.map fun range => .snapshot (listUnder (replay entries) range)⟩) ∧
    (∀ key e, (replay entries).get key = some e ↔
      lastPoint entries key = some e ∧ e.mutation.isSet = true ∧
        ∀ d ∈ entries, ∀ range, d.mutation = .deleteRange range → range.coversKey key = true →
          ¬ e.order < d.order) ∧
    (∀ now req,
      (∀ response, (admitRequest sha256 space store now req).1 = .ok response →
        ∀ seq, AdmissionResult.applied seq ∉ response.results) →
      log sha256 space (verbs ++ [.admitRequest now req]) = log sha256 space verbs) := by
  obtain ⟨L, hD, hV, hlog⟩ := run_refines sha256 space verbs
  rw [← hlog]
  have hc := hV.logged.chronicle
  exact ⟨hc.sorted, fun keys => get_spec hD.materialized hc ⟨keys⟩,
    fun listPrefix => list_spec hD.materialized hc hD.known listPrefix,
    readAt_snapshots hD hV, fun key e => get_replay_eq_some_iff hc,
    fun now req h => hlog ▸ log_concat_of_rejected h⟩

/-! ## Live counts -/

/-- Every visible key has a data row of its own. -/
theorem countUnder_le_rows {es : List Entry} (hm : Materialized space store es) (hc : Chronicle es)
    (range : Range) : countUnder (replay es) range ≤ store.entries.length := by
  have hinj : Function.Injective (dataKey space) := by
    intro a b hab
    have h := congrArg userKeyFromData hab
    rw [userKeyFromData_dataKey, userKeyFromData_dataKey] at h
    exact Option.some.inj h
  refine (countP_le_length).trans (OrdMap.length_entries_le hinj fun key e he => ?_)
  obtain ⟨hlast, -⟩ := (get_replay_eq_some_iff hc).mp he
  exact ⟨pointBytes e, by rw [hm.data, hlast]; rfl⟩

/-- A panic of `admitRequest` is a counter that would pass `u64::MAX`. -/
theorem admit_panic (hD : Denotes sha256 space store L) (hV : L.Valid sha256 space)
    {message : String} (h : (admitRequest sha256 space store now req).1 = .error (.panic message)) :
    AdmitPanic (store.entries.length +
      (req.batches.map fun batch => batch.entries.length).sum) message := by
  have hspec := admit_spec hD hV now req
  have hle := countUnder_le_rows hD.materialized hV.logged.chronicle .full
  split at hspec
  next => rw [hspec.1] at h; cases h
  next => rw [hspec] at h; cases h
  next failure hfailure =>
    rw [hspec] at h
    cases h
    exact (specAdmit_panic hfailure).mono (by omega)

/-- The live count the server reads off its aggregates and tombstones is the
number of keys the replay shows, so a count of zero hides nothing.  Taking a range
out of its ancestors never underflows, and a point operation panics on the count
only where the store would come to hold `2 ^ 64` rows. -/
theorem liveCount_exact (sha256 : Bytes → ByteArr 32) (space : SpaceId) (verbs : List Verb) :
    let store := (run sha256 space verbs).store
    let live := replay (events (log sha256 space verbs))
    (∀ range, ∃ count, effectiveLiveCount space store range = .ok count ∧
      count.val = countUnder live range ∧
      (count = 0 → ∀ key e, live.get key = some e → range.coversKey key = false)) ∧
    (∀ now req, (admitRequest sha256 space store now req).1 ≠
      .error (.panic "live count underflow: range count exceeds ancestor count")) ∧
    (∀ now req,
      store.entries.length + (req.batches.map fun batch => batch.entries.length).sum < 2 ^ 64 →
      (admitRequest sha256 space store now req).1 ≠
        .error (.panic "live count underflow: aggregates diverged from visible point state")) := by
  obtain ⟨L, hD, hV, hlog⟩ := run_refines sha256 space verbs
  rw [← hlog]
  have hc := hV.logged.chronicle
  refine ⟨fun range => ?_, fun now req h => ?_, fun now req hroom h => ?_⟩
  · have hval : (U64.ofNat (countUnder (replay (events L.log)) range)).val =
        countUnder (replay (events L.log)) range :=
      U64.val_ofNat (lt_of_le_of_lt (countUnder_mono _ rfl) hV.logged.live)
    refine ⟨_, effectiveLiveCount_spec hD.materialized hc range, hval, fun hzero => ?_⟩
    rw [hzero] at hval
    exact (OrdMap.count_eq_zero_iff _ _).mp hval.symm
  · rcases (admit_panic hD hV h).message with hmessage | ⟨hmessage, -⟩
    · exact absurd hmessage (by decide)
    · exact absurd hmessage (by decide)
  · rcases (admit_panic hD hV h).message with hmessage | ⟨-, hge⟩
    · exact absurd hmessage (by decide)
    · omega

end Homebase.Properties
