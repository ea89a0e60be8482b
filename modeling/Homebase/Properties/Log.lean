import Homebase.Refine.Log
import Homebase.Properties.Visibility

set_option autoImplicit false

/-!
# Properties: the log as clients read it

`pull` pages through the log without gaps and never changes its answer
(`pull_dense`).  A snapshot of a range brought forward by the delta since it was
taken is the snapshot of the later state (`delta_reconstructs`).
-/

namespace Homebase.Properties

open Foundation Homebase.Core Server Ledger Refine List
open OrdMap (get_erase get_insert get_retain)

/-! ## Pages -/

/-- Pulls page after page, each where the one before it ended. -/
def pullPages (space : SpaceId) (store : Store) :
    AdmissionSeq → List (Option Nat) → Except Failure (AdmissionSeq × List AdmittedBatch)
  | after, [] => .ok (after, [])
  | after, limit :: rest => do
      let page ← pull space store ⟨after, limit⟩
      let pages ← pullPages space store page.through rest
      .ok (pages.1, page.batches ++ pages.2)

theorem pageEnd_of_le {length after n : Nat} (h : after + n ≤ length) :
    pageEnd length after (some n) = after + n := min_eq_left h

theorem slice_append {α : Type} {l : List α} {a b c : Nat} (hab : a ≤ b) (hbc : b ≤ c) :
    (l.drop a).take (b - a) ++ (l.drop b).take (c - b) = (l.drop a).take (c - a) := by
  have hsplit : c - a = (b - a) + (c - b) := by omega
  have hdrop : (l.drop a).drop (b - a) = l.drop b := by
    rw [drop_drop, Nat.add_sub_cancel' hab]
  rw [hsplit, take_add, hdrop]

section Pages

variable {sha256 : Bytes → ByteArr 32} {space : SpaceId} {store : Store} {L : Space}

theorem le_pageEnd {length after : Nat} (h : after ≤ length) (limit : Option Nat) :
    after ≤ pageEnd length after limit ∧ pageEnd length after limit ≤ length := by
  cases limit with
  | none => exact ⟨h, le_refl _⟩
  | some limit =>
    simp only [pageEnd, Option.elim_some]
    omega

/-- Pages follow each other without a gap, and enough of them reach the end. -/
theorem pullPages_spec (hD : Denotes sha256 space store L) (hV : L.Valid sha256 space)
    (limits : List (Option Nat)) (after : AdmissionSeq) (hafter : after.val ≤ L.log.length) :
    ∃ through : AdmissionSeq, after ≤ through ∧ through.val ≤ L.log.length ∧
      pullPages space store after limits = .ok (through,
        ((admittedBatches sha256 space L.log).drop after.val).take (through.val - after.val)) ∧
      (L.log.length ≤ after.val + (limits.map fun limit => limit.getD L.log.length).sum →
        through.val = L.log.length) := by
  induction limits generalizing after with
  | nil =>
    refine ⟨after, le_refl _, hafter, by rw [pullPages, Nat.sub_self, take_zero], ?_⟩
    intro hsum
    simp only [map_nil, sum_nil] at hsum
    omega
  | cons limit rest ih =>
    have hshort := hV.logged.short
    obtain ⟨hlow, hhigh⟩ := le_pageEnd hafter limit
    have hval : (U64.ofNat (pageEnd L.log.length after.val limit)).val =
        pageEnd L.log.length after.val limit := U64.val_ofNat (by omega)
    obtain ⟨through, hle, hend, hpages, hreach⟩ := ih
      (U64.ofNat (pageEnd L.log.length after.val limit)) (by omega)
    rw [Fin.le_def, hval] at hle
    rw [hval] at hpages hreach
    refine ⟨through, by rw [Fin.le_def]; omega, hend, ?_, fun hsum => hreach ?_⟩
    · rw [pullPages, pull_spec hD hV ⟨after, limit⟩ hafter]
      simp only [ok_bind, hpages]
      rw [slice_append hlow hle]
    · rw [map_cons, sum_cons] at hsum
      cases limit with
      | none =>
        simp only [pageEnd, Option.elim_none]
        omega
      | some limit =>
        simp only [Option.getD_some] at hsum
        simp only [pageEnd, Option.elim_some]
        omega

end Pages

/-- In every reachable state `pull` returns exactly the admitted batches of the
interval it is asked for, as they were admitted and with the checksum of their
device so far.  Nothing that happens later changes the answer, and pages that
follow each other add up to the log. -/
theorem pull_dense (sha256 : Bytes → ByteArr 32) (space : SpaceId) (verbs : List Verb) :
    let store := (run sha256 space verbs).store
    let admitted := log sha256 space verbs
    let batches := admittedBatches sha256 space admitted
    (∃ c, counters space store = .ok c ∧ c.admissionHighWater.val = admitted.length) ∧
    batches.length = admitted.length ∧
    (∀ i a, admitted[i]? = some a → a.seq.val = i + 1 ∧
      batches[i]? = some ⟨a.seq, a.device, a.batch.deviceSeq,
        ((admitted.take (i + 1)).filter fun b => decide (b.device = a.device)).foldl
          (fun checksum b => b.batch.checksum sha256 checksum space a.device) DeviceChecksum.empty,
        a.entries⟩) ∧
    (∀ after maxBatches, after.val ≤ admitted.length →
      pull space store ⟨after, maxBatches⟩ = .ok ⟨after,
        U64.ofNat (pageEnd admitted.length after.val maxBatches),
        (batches.drop after.val).take (pageEnd admitted.length after.val maxBatches - after.val)⟩) ∧
    (∀ later after n, after.val + n ≤ admitted.length →
      pull space (run sha256 space (verbs ++ later)).store ⟨after, some n⟩ =
        pull space store ⟨after, some n⟩) ∧
    (∀ limits, ∃ through : AdmissionSeq,
      pullPages space store 0 limits = .ok (through, batches.take through.val) ∧
      (admitted.length ≤ (limits.map fun limit => limit.getD admitted.length).sum →
        batches.take through.val = batches)) ∧
    (∀ device, (stream device admitted).Pairwise
      fun a b => a.batch.deviceSeq < b.batch.deviceSeq) := by
  obtain ⟨L, hD, hV, hlog⟩ := run_refines sha256 space verbs
  have hshort := hV.logged.short
  rw [← hlog]
  refine ⟨⟨_, counters_spec hD, ?_⟩, length_admittedFrom sha256 space [] L.log, fun i a ha => ?_,
    fun after maxBatches hafter => pull_spec hD hV ⟨after, maxBatches⟩ hafter,
    fun later after n hle => ?_, fun limits => ?_, hV.deviceSeqs⟩
  · rw [hV.highWater, U64.val_ofNat (by omega)]
  · refine ⟨hV.logged.dense i a ha, ?_⟩
    have htake : L.log.take (i + 1) = L.log.take i ++ [a] := by
      rw [take_add_one, ha]
      rfl
    rw [admittedBatches, getElem?_admittedFrom, ha, htake]
    rfl
  · obtain ⟨L', hD', hV', hlog'⟩ := run_refines sha256 space (verbs ++ later)
    rw [log_append, ← hlog] at hlog'
    rw [pull_spec hD hV ⟨after, some n⟩ (by dsimp only; omega),
      pull_spec hD' hV' ⟨after, some n⟩ (by rw [hlog', length_append]; dsimp only; omega)]
    rw [hlog']
    simp only [pageEnd_of_le hle, length_append, Nat.add_sub_cancel_left,
      pageEnd_of_le (Nat.le_add_right_of_le hle)]
    rw [admittedBatches_append, drop_append_of_le_length, take_append_of_le_length]
    · rw [length_drop, admittedBatches, length_admittedFrom]
      omega
    · rw [admittedBatches, length_admittedFrom]
      omega
  · obtain ⟨through, -, hend, hpages, hreach⟩ := pullPages_spec hD hV limits 0 (Nat.zero_le _)
    refine ⟨through, hpages, fun hsum => ?_⟩
    rw [hreach (by simpa using hsum), take_of_length_le]
    exact (length_admittedFrom sha256 space [] L.log).le

/-! ## Snapshots and deltas -/

/-- Applies an entry of a delta over a range: a Set inserts, a Delete removes, a
range deletion removes the keys of its intersection with the range
(`FetchedRange::delete_range_effect`). -/
def applyWithin (range : Range) (live : OrdMap Key Entry) (e : Entry) : OrdMap Key Entry :=
  match e.mutation with
  | .set key _ => live.insert key e
  | .delete key => live.erase key
  | .deleteRange source =>
      match range.intersection source with
      | some effect => live.retain fun key _ => !effect.coversKey key
      | none => live

/-- A snapshot as a map from its keys. -/
def ofSnapshot (entries : List Entry) : OrdMap Key Entry :=
  entries.foldl (fun live e => (e.mutation.pointKey.map fun key => live.insert key e).getD live)
    OrdMap.empty

/-- The part of a map a range covers. -/
def within (range : Range) (live : OrdMap Key Entry) : OrdMap Key Entry :=
  live.retain fun key _ => range.coversKey key

theorem get_within (range : Range) (live : OrdMap Key Entry) (key : Key) :
    (within range live).get key = if range.coversKey key then live.get key else none := by
  rw [within, get_retain]
  cases hget : live.get key with
  | none => simp
  | some e => cases range.coversKey key <;> simp [Option.filter_some]

theorem values_within (range : Range) (live : OrdMap Key Entry) :
    (within range live).values = listUnder live range := rfl

/-- Reading a snapshot back gives the map it was taken from. -/
theorem ofSnapshot_values {live : OrdMap Key Entry}
    (hkey : ∀ key e, live.get key = some e → e.mutation.pointKey = some key) :
    ofSnapshot live.values = live := by
  have hstep : ∀ (acc : OrdMap Key Entry) (p : Key × Entry), p ∈ live.entries →
      (p.2.mutation.pointKey.map fun key => acc.insert key p.2).getD acc =
        acc.insert p.1 p.2 := by
    intro acc p hp
    rw [hkey p.1 p.2 (OrdMap.mem_entries_iff.mp hp)]
    rfl
  rw [ofSnapshot, OrdMap.values, foldl_map, foldl_ext _ _ OrdMap.empty hstep]
  exact OrdMap.foldl_insert_entries live

variable {range : Range} {e : Entry}

/-- An entry relevant to the range acts on the covered part as it does on the whole. -/
theorem applyWithin_within (h : relevant range e = true) (live : OrdMap Key Entry) :
    applyWithin range (within range live) e = within range (applyEvent live e) := by
  refine OrdMap.ext_get fun key => ?_
  rw [get_within]
  unfold applyWithin applyEvent
  cases hm : e.mutation with
  | set target value =>
    have hcovered : range.coversKey target = true := by
      simpa [relevant, mutationRelevant, hm] using h
    rw [get_insert, get_insert, get_within]
    by_cases heq : key = target
    · simp [heq, hcovered]
    · simp [heq]
  | delete target =>
    rw [get_erase, get_erase, get_within]
    by_cases heq : key = target
    · simp [heq]
    · simp [heq]
  | deleteRange source =>
    have heffect := Range.intersection_coversKey range source key
    rw [get_retain]
    cases hi : range.intersection source with
    | none =>
      simp only [hi, reduceCtorEq, false_and, exists_false, false_iff, not_and] at heffect
      simp only [hi]
      rw [get_within]
      cases hr : range.coversKey key with
      | false => simp
      | true =>
        have hs : source.coversKey key = false := by simpa using heffect hr
        cases live.get key <;> simp [Option.filter_some, hs]
    | some effect =>
      simp only [hi, Option.some.injEq, exists_eq_left'] at heffect
      simp only [hi]
      rw [get_retain, get_within]
      cases hr : range.coversKey key with
      | false => simp
      | true =>
        have hsame : effect.coversKey key = source.coversKey key := by
          rw [Bool.eq_iff_iff, heffect, hr]
          simp
        simp [hsame]

/-- An entry that is not relevant to the range leaves the covered part alone. -/
theorem within_applyEvent (h : relevant range e = false) (live : OrdMap Key Entry) :
    within range (applyEvent live e) = within range live := by
  refine OrdMap.ext_get fun key => ?_
  rw [get_within, get_within]
  unfold applyEvent
  cases hm : e.mutation with
  | set target value =>
    have hcovered : range.coversKey target = false := by
      simpa [relevant, mutationRelevant, hm] using h
    rw [get_insert]
    by_cases heq : key = target
    · simp [heq, hcovered]
    · simp [heq]
  | delete target =>
    have hcovered : range.coversKey target = false := by
      simpa [relevant, mutationRelevant, hm] using h
    rw [get_erase]
    by_cases heq : key = target
    · simp [heq, hcovered]
    · simp [heq]
  | deleteRange source =>
    have hdisjoint : range.overlaps source = false := by
      simpa [relevant, mutationRelevant, hm] using h
    rw [get_retain]
    cases hr : range.coversKey key with
    | false => simp
    | true =>
      have hs : source.coversKey key = false := by
        by_contra hs
        rw [Range.overlaps_of_coversKey hr (by simpa using hs)] at hdisjoint
        cases hdisjoint
      cases live.get key <;> simp [Option.filter_some, hs]

/-- The relevant entries bring the covered part of a map forward. -/
theorem foldl_applyWithin (range : Range) (entries : List Entry) (live : OrdMap Key Entry) :
    (entries.filter (relevant range)).foldl (applyWithin range) (within range live) =
      within range (entries.foldl applyEvent live) := by
  induction entries generalizing live with
  | nil => rfl
  | cons e entries ih =>
    rw [foldl_cons, filter_cons]
    cases hrelevant : relevant range e with
    | true => rw [if_pos rfl, foldl_cons, applyWithin_within hrelevant, ih]
    | false => rw [if_neg (by simp), ← within_applyEvent hrelevant live, ih]

section Cuts

variable {sha256 : Bytes → ByteArr 32} {space : SpaceId} {store : Store} {L : Space}

theorem readAt_delta (hD : Denotes sha256 space store L) (hV : L.Valid sha256 space)
    (range : Range) (since : AdmissionSeq) :
    readAt space store ⟨[⟨range, some since⟩]⟩ = .ok ⟨U64.ofNat L.log.length,
      [.delta ((events L.log).filter fun e => decide (since < e.seq) && relevant range e)]⟩ := by
  have hcut : readCut space store L.record.admissionHighWater ⟨range, some since⟩ =
      .ok (RangeCut.delta
        ((events L.log).filter fun e => decide (since < e.seq) && relevant range e)) := by
    simp only [readCut, delta_spec hD hV, Except.map]
  rw [readAt, counters_spec hD, ok_bind]
  simp only [mapM_cons, mapM_nil, hcut]
  rw [hV.highWater]
  rfl

/-- The delta since a cut is what was admitted after it. -/
theorem changes_since_cut {log log' added : List Admission} (h : Logged log')
    (hgrow : log' = log ++ added) (range : Range) :
    ((events log').filter fun e =>
        decide (U64.ofNat log.length < e.seq) && relevant range e) =
      (events added).filter (relevant range) := by
  have hshort := h.short
  rw [hgrow, length_append] at hshort
  rw [h.filter_events_after, U64.val_ofNat (by omega), hgrow, drop_left]

theorem pointKey_of_get_within {es : List Entry} (hc : Chronicle es) {range : Range} {key : Key}
    {e : Entry} (h : (within range (replay es)).get key = some e) :
    e.mutation.pointKey = some key := by
  rw [get_within] at h
  split at h
  · exact (mem_of_lastPoint ((get_replay_eq_some_iff hc).mp h).1).2
  · cases h

end Cuts

/-- For any two reachable states, one after the other: the delta of a range since a
sequence is the list of the relevant mutations after it, in admission order; applied
to the snapshot of the older state, the delta since that state gives the snapshot of
the newer one; and deltas over adjacent cuts compose. -/
theorem delta_reconstructs (sha256 : Bytes → ByteArr 32) (space : SpaceId)
    (verbs later : List Verb) (range : Range) :
    let cut := fun verbs => U64.ofNat (log sha256 space verbs).length
    let read := fun verbs since =>
      readAt space (run sha256 space verbs).store ⟨[⟨range, since⟩]⟩
    let changes := fun verbs since => (events (log sha256 space verbs)).filter fun e =>
      decide (since < e.seq) && mutationRelevant range e.mutation
    ((events (log sha256 space (verbs ++ later))).Pairwise fun a b => a.order < b.order) ∧
    (∀ e ∈ events (log sha256 space (verbs ++ later)), e.seq ≤ cut (verbs ++ later)) ∧
    (∀ since, read (verbs ++ later) (some since) =
      .ok ⟨cut (verbs ++ later), [.delta (changes (verbs ++ later) since)]⟩) ∧
    (∀ since, cut (verbs ++ later) < since → changes (verbs ++ later) since = []) ∧
    (∃ old new, read verbs none = .ok ⟨cut verbs, [.snapshot old]⟩ ∧
      read (verbs ++ later) none = .ok ⟨cut (verbs ++ later), [.snapshot new]⟩ ∧
      ((changes (verbs ++ later) (cut verbs)).foldl (applyWithin range) (ofSnapshot old)).values =
        new) ∧
    (∀ more, changes (verbs ++ later ++ more) (cut verbs) =
      changes (verbs ++ later) (cut verbs) ++
        changes (verbs ++ later ++ more) (cut (verbs ++ later))) := by
  obtain ⟨L, hD, hV, hlog⟩ := run_refines sha256 space verbs
  obtain ⟨L', hD', hV', hlog'⟩ := run_refines sha256 space (verbs ++ later)
  have hgrow : L'.log = L.log ++ logFrom sha256 space (run sha256 space verbs) later := by
    rw [hlog', log_append, hlog]
  have hshort := hV'.logged.short
  have hbelow : ∀ e ∈ events L'.log, e.seq ≤ U64.ofNat L'.log.length := by
    intro e he
    obtain ⟨a, ha, he⟩ := mem_events_iff.mp he
    rw [seq_of_mem_entries he, Fin.le_def, U64.val_ofNat (by omega)]
    exact hV'.logged.seq_le ha
  intro cut read changes
  have hcut : cut verbs = U64.ofNat L.log.length := by rw [hlog]
  have hcut' : cut (verbs ++ later) = U64.ofNat L'.log.length := by rw [hlog']
  have hchanges : ∀ since, changes (verbs ++ later) since = (events L'.log).filter fun e =>
      decide (since < e.seq) && relevant range e := by
    intro since
    rw [hlog']
    rfl
  rw [hcut, hcut', ← hlog']
  refine ⟨hV'.logged.chronicle.sorted, hbelow, fun since => ?_, fun since hsince => ?_,
    ⟨_, _, readAt_snapshots hD hV [range], readAt_snapshots hD' hV' [range], ?_⟩, fun more => ?_⟩
  · rw [hchanges]
    exact readAt_delta hD' hV' range since
  · rw [hchanges]
    refine filter_eq_nil_iff.mpr fun e he => ?_
    simp [not_lt.mpr ((hbelow e he).trans hsince.le)]
  · have hold : ofSnapshot (listUnder (replay (events L.log)) range) =
        within range (replay (events L.log)) := by
      rw [← values_within]
      exact ofSnapshot_values fun key e => pointKey_of_get_within hV.logged.chronicle
    rw [hchanges, changes_since_cut hV'.logged hgrow, hold, foldl_applyWithin, hgrow,
      events_append, ← replay_append, values_within]
  · obtain ⟨M, -, hVM, hlogM⟩ := run_refines sha256 space (verbs ++ later ++ more)
    have hgrowM : M.log = L'.log ++ logFrom sha256 space (run sha256 space (verbs ++ later)) more := by
      rw [hlogM, log_append, hlog']
    have hchangesM : ∀ since, changes (verbs ++ later ++ more) since = (events M.log).filter fun e =>
        decide (since < e.seq) && relevant range e := by
      intro since
      rw [hlogM]
      rfl
    have hgrowL : M.log = L.log ++ (logFrom sha256 space (run sha256 space verbs) later ++
        logFrom sha256 space (run sha256 space (verbs ++ later)) more) := by
      rw [hgrowM, hgrow, append_assoc]
    rw [hchangesM, hchanges, hchangesM, changes_since_cut hVM.logged hgrowL,
      changes_since_cut hV'.logged hgrow, changes_since_cut hVM.logged hgrowM, events_append,
      filter_append]

end Homebase.Properties
