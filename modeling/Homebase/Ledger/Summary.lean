import Homebase.Ledger.Replay

set_option autoImplicit false

/-!
# Ledger: what the materialized records summarise

The store does not replay its log.  It keeps one tombstone record per exact
range and one aggregate per node of the prefix tree, both updated as entries are
admitted.  This module states those records as functions of the entries
(`rangeOf`, `metaOf`) and proves that the queries answered from them are exact:

* the effective history of a range answers every exclusion query, the overall
  maximum and the version floor over all entries relevant to the range;
* the newest covering tombstone is the newest covering range deletion;
* the lazily reset live count is the number of visible keys.
-/

namespace Homebase.Ledger

open Foundation Homebase.Core Server List

/-! ## How an entry bears on a range -/

/-- The entry lies under the range: a covered point, or a covered range. -/
def touches (range : Range) (e : Entry) : Bool :=
  match e.mutation with
  | .set key _ => range.coversKey key
  | .delete key => range.coversKey key
  | .deleteRange target => range.coversRange target

/-- The entry is a range deletion at one of the listed targets. -/
def targets (ranges : List Range) (e : Entry) : Bool :=
  match e.mutation with
  | .set _ _ => false
  | .delete _ => false
  | .deleteRange target => decide (target ∈ ranges)

/-- The entry is relevant to the range, in the sense of `mutation_relevant`. -/
def relevant (range : Range) (e : Entry) : Bool := mutationRelevant range e.mutation

theorem targets_covering (range : Range) (e : Entry) :
    targets range.covering e = resets range e := by
  unfold targets resets resetOrder
  cases e.mutation with
  | set key value => rfl
  | delete key => rfl
  | deleteRange target =>
    cases h : target.coversRange range <;> simp [Range.mem_covering_iff, h]

/-- Relevant entries are those under the range and those that cover it. -/
theorem relevant_eq (range : Range) (e : Entry) :
    relevant range e = (touches range e || targets range.covering e) := by
  rw [targets_covering]
  unfold relevant mutationRelevant touches resets resetOrder
  cases e.mutation with
  | set key value => simp
  | delete key => simp
  | deleteRange target => cases h : target.coversRange range <;> simp [Range.overlaps, h]

theorem targets_cons (range : Range) (ranges : List Range) (e : Entry) :
    targets (range :: ranges) e = (targets [range] e || targets ranges e) := by
  unfold targets
  cases e.mutation <;> simp

variable {range : Range} {e : Entry}

theorem targets_singleton_iff : targets [range] e = true ↔ e.mutation = .deleteRange range := by
  unfold targets
  cases e.mutation <;> simp

/-! ## Tombstone records -/

theorem isDeleteRange_of_eq (h : e.mutation = .deleteRange range) :
    e.mutation.isDeleteRange = true := by
  rw [h]
  rfl

/-- One entry folded into the tombstone record of a range. -/
def rangeStep (range : Range) (acc : Option RangeDeleteRecord) (e : Entry) :
    Option RangeDeleteRecord :=
  if h : e.mutation = .deleteRange range then
    match acc with
    | none => some (RangeDeleteRecord.new e (isDeleteRange_of_eq h))
    | some record => some (record.absorb e (isDeleteRange_of_eq h))
  else acc

/-- The tombstone record of a range after the entries. -/
def rangeOf (es : List Entry) (range : Range) : Option RangeDeleteRecord :=
  es.foldl (rangeStep range) none

@[simp] theorem rangeOf_nil (range : Range) : rangeOf [] range = none := rfl

theorem rangeOf_concat (es : List Entry) (e : Entry) (range : Range) :
    rangeOf (es ++ [e]) range = rangeStep range (rangeOf es range) e := by
  simp [rangeOf, foldl_append]

variable {es : List Entry}

theorem rangeOf_concat_of_ne (h : e.mutation ≠ .deleteRange range) :
    rangeOf (es ++ [e]) range = rangeOf es range := by
  rw [rangeOf_concat, rangeStep, dif_neg h]

/-- What the tombstone record of a range says about the entries. -/
structure RangeSummary (es : List Entry) (range : Range) (record : RangeDeleteRecord) : Prop where
  mem : record.entry ∈ es
  target : record.entry.mutation = .deleteRange range
  newest : ∀ d ∈ es, targets [range] d = true → d.order ≤ record.entry.order
  coherent : record.Coherent
  excluding : ∀ device, record.history.maxExcluding device =
    top AdmittedEntry.seq (fun e => targets [range] e && decide (e.device ≠ device)) es
  ver : record.maxVer = top AdmittedEntry.ver (targets [range]) es

/-- No record stands for a range nothing was deleted at. -/
def RangeSummarized (es : List Entry) (range : Range) : Option RangeDeleteRecord → Prop
  | none => ∀ e ∈ es, targets [range] e = false
  | some record => RangeSummary es range record

/-- An older entry of another device has a smaller sequence. -/
theorem Chronicle.seq_lt_last {e d : Entry} (h : Chronicle (es ++ [e])) (hd : d ∈ es)
    (hne : d.device ≠ e.device) : d.seq < e.seq := by
  refine lt_of_le_of_ne (AdmittedEntry.seq_le_of_order_lt (h.order_lt_last hd)) fun heq => hne ?_
  exact h.one_author d (mem_append_left _ hd) e (by simp) heq

theorem RangeSummary.new (h : Chronicle (es ++ [e])) (hm : e.mutation = .deleteRange range)
    (hnone : ∀ d ∈ es, targets [range] d = false) :
    RangeSummary (es ++ [e]) range (RangeDeleteRecord.new e (isDeleteRange_of_eq hm)) := by
  have htarget : targets [range] e = true := targets_singleton_iff.mpr hm
  have hseq : e.seq ≠ 0 := h.seq_ne_zero e (by simp)
  constructor
  · exact mem_append_right _ (mem_singleton_self e)
  · exact hm
  · intro d hd hdt
    rcases mem_append.mp hd with hd | hd
    · rw [hnone d hd] at hdt
      cases hdt
    · rw [mem_singleton.mp hd]
      exact le_rfl
  · refine ⟨HistoricalHeads.valid_observe HistoricalHeads.valid_empty _ _, ?_, le_rfl⟩
    refine HistoricalHeads.first_observe HistoricalHeads.valid_empty hseq ?_ ?_
    · rw [HistoricalHeads.maxAdmissionSeq_empty]
      exact Fin.zero_le _
    · rw [HistoricalHeads.maxExcluding_empty]
      exact Fin.pos_iff_ne_zero.mpr hseq
  · intro device
    have hzero : top AdmittedEntry.seq
        (fun e => targets [range] e && decide (e.device ≠ device)) es = 0 :=
      top_eq_zero_of_forall fun d hd => by rw [hnone d hd, Bool.false_and]
    rw [RangeDeleteRecord.new, HistoricalHeads.maxExcluding_observe HistoricalHeads.valid_empty,
      HistoricalHeads.maxExcluding_empty, top_concat, hzero, htarget]
    by_cases hdev : e.device = device <;> simp [hdev]
  · rw [top_concat, htarget, top_eq_zero_of_forall hnone]
    exact (max_eq_right (Fin.zero_le _)).symm

variable {record : RangeDeleteRecord}

theorem RangeSummary.absorb (h : Chronicle (es ++ [e])) (hm : e.mutation = .deleteRange range)
    (hs : RangeSummary es range record) :
    RangeSummary (es ++ [e]) range (record.absorb e (isDeleteRange_of_eq hm)) := by
  have htarget : targets [range] e = true := targets_singleton_iff.mpr hm
  have hseq : e.seq ≠ 0 := h.seq_ne_zero e (by simp)
  have hlt : record.entry.order < e.order := h.order_lt_last hs.mem
  have hentry : (record.absorb e (isDeleteRange_of_eq hm)).entry = e := if_pos hlt
  constructor
  · rw [hentry]
    exact mem_append_right _ (mem_singleton_self e)
  · rw [hentry, hm]
  · intro d hd _
    rw [hentry]
    rcases mem_append.mp hd with hd | hd
    · exact (h.order_lt_last hd).le
    · rw [mem_singleton.mp hd]
  · refine ⟨HistoricalHeads.valid_observe hs.coherent.valid _ _, ?_, ?_⟩
    · rw [hentry]
      refine HistoricalHeads.first_observe hs.coherent.valid hseq ?_ ?_
      · rw [hs.coherent.maxAdmissionSeq]
        exact AdmittedEntry.seq_le_of_order_lt hlt
      · rw [hs.excluding, top_lt_iff hseq]
        intro d hd hp
        rw [Bool.and_eq_true, decide_eq_true_eq] at hp
        exact h.seq_lt_last hd hp.2
    · rw [hentry]
      exact le_max_right _ _
  · intro device
    rw [RangeDeleteRecord.absorb, HistoricalHeads.maxExcluding_observe hs.coherent.valid,
      hs.excluding, top_concat, htarget]
    by_cases hdev : e.device = device <;> simp [hdev]
  · rw [top_concat, htarget, ← hs.ver]
    rfl

theorem RangeSummary.frame (hs : RangeSummary es range record) (hne : targets [range] e = false) :
    RangeSummary (es ++ [e]) range record := by
  constructor
  · exact mem_append_left _ hs.mem
  · exact hs.target
  · intro d hd hdt
    rcases mem_append.mp hd with hd | hd
    · exact hs.newest d hd hdt
    · rw [mem_singleton.mp hd, hne] at hdt
      cases hdt
  · exact hs.coherent
  · intro device
    rw [hs.excluding, top_concat, hne]
    simp
  · rw [hs.ver, top_concat, hne]
    simp

/-- Every tombstone record summarises the range deletions at its target. -/
theorem rangeOf_summarized (h : Chronicle es) (range : Range) :
    RangeSummarized es range (rangeOf es range) := by
  refine Chronicle.concat_induction
    (motive := fun es => RangeSummarized es range (rangeOf es range)) (by simp [RangeSummarized])
    ?_ h
  intro es e h ih
  rw [rangeOf_concat, rangeStep]
  split
  next hm =>
    cases hr : rangeOf es range with
    | none =>
      rw [hr] at ih
      exact RangeSummary.new h hm ih
    | some record =>
      rw [hr] at ih
      exact RangeSummary.absorb h hm ih
  next hm =>
    have hne : targets [range] e = false := by
      rw [← Bool.not_eq_true, targets_singleton_iff]
      exact hm
    cases hr : rangeOf es range with
    | none =>
      rw [hr] at ih
      intro d hd
      rcases mem_append.mp hd with hd | hd
      · exact ih d hd
      · rw [mem_singleton.mp hd, hne]
    | some record =>
      rw [hr] at ih
      exact RangeSummary.frame ih hne

theorem rangeSummary_of_eq_some (h : Chronicle es) (hr : rangeOf es range = some record) :
    RangeSummary es range record := by
  have hs := rangeOf_summarized h range
  rwa [hr] at hs

theorem targets_of_rangeOf_none (h : Chronicle es) (hr : rangeOf es range = none) (he : e ∈ es) :
    targets [range] e = false := by
  have hs := rangeOf_summarized h range
  rw [hr] at hs
  exact hs e he

/-! ## Folding the covering tombstones -/

/-- The tombstone records at the listed ranges, in order. -/
def recordsAt (es : List Entry) (ranges : List Range) : List RangeDeleteRecord :=
  ranges.filterMap (rangeOf es)

/-- The position of an entry that is a range deletion at one of the ranges. -/
def orderAt (ranges : List Range) (e : Entry) : Option AdmissionOrder :=
  if targets ranges e then some e.order else none

theorem orderAt_covering (range : Range) (e : Entry) :
    orderAt range.covering e = resetOrder range e := by
  rw [orderAt, targets_covering, resets]
  unfold resetOrder
  cases e.mutation with
  | set key value => rfl
  | delete key => rfl
  | deleteRange target => cases h : target.coversRange range <;> simp [h]

theorem mem_filterMap_orderAt_cons {ranges : List Range} {o : AdmissionOrder} :
    o ∈ es.filterMap (orderAt (range :: ranges)) ↔
      o ∈ es.filterMap (orderAt [range]) ++ es.filterMap (orderAt ranges) := by
  simp only [mem_append, mem_filterMap, orderAt, targets_cons range ranges,
    Bool.or_eq_true]
  constructor
  · rintro ⟨e, he, ho⟩
    split at ho
    next hor =>
      rcases hor with h | h
      · exact Or.inl ⟨e, he, by rw [if_pos h]; exact ho⟩
      · exact Or.inr ⟨e, he, by rw [if_pos h]; exact ho⟩
    next => cases ho
  · rintro (⟨e, he, ho⟩ | ⟨e, he, ho⟩)
    · refine ⟨e, he, ?_⟩
      split at ho
      next h => rw [if_pos (Or.inl h)]; exact ho
      next => cases ho
    · refine ⟨e, he, ?_⟩
      split at ho
      next h => rw [if_pos (Or.inr h)]; exact ho
      next => cases ho

theorem newerRecord_order (newest : Option RangeDeleteRecord) (record : RangeDeleteRecord) :
    (newerRecord newest record).map (fun r => r.entry.order) =
      max (newest.map fun r => r.entry.order) (some record.entry.order) := by
  unfold newerRecord
  cases newest with
  | none => simp
  | some current =>
    simp only [Option.map_some]
    split
    next hlt => simp [max_eq_right hlt.le]
    next hnlt => simp [max_eq_left (not_lt.mp hnlt)]

/-- Folding the newer of two tombstones finds the newest range deletion at the
ranges. -/
theorem foldl_newerRecord_order (h : Chronicle es) (ranges : List Range)
    (init : Option RangeDeleteRecord) :
    ((recordsAt es ranges).foldl newerRecord init).map (fun r => r.entry.order) =
      max (init.map fun r => r.entry.order) (es.filterMap (orderAt ranges)).max? := by
  induction ranges generalizing init with
  | nil =>
    have hnone : es.filterMap (orderAt []) = [] := by
      rw [filterMap_eq_nil_iff]
      intro e _
      unfold orderAt targets
      cases e.mutation <;> simp
    simp [recordsAt, hnone]
  | cons range ranges ih =>
    rw [max?_congr fun o => mem_filterMap_orderAt_cons, max?_append, ← option_max_assoc]
    cases hr : rangeOf es range with
    | none =>
      have hnone : es.filterMap (orderAt [range]) = [] := by
        rw [filterMap_eq_nil_iff]
        intro e he
        rw [orderAt, targets_of_rangeOf_none h hr he]
        rfl
      rw [hnone, max?_nil, recordsAt, filterMap_cons_none hr]
      simpa [recordsAt] using ih init
    | some record =>
      have hs := rangeSummary_of_eq_some h hr
      have hmax : (es.filterMap (orderAt [range])).max? = some record.entry.order := by
        rw [max?_eq_some_iff]
        constructor
        · refine mem_filterMap.mpr ⟨record.entry, hs.mem, ?_⟩
          rw [orderAt, targets_singleton_iff.mpr hs.target]
          rfl
        · intro o ho
          obtain ⟨d, hd, hdo⟩ := mem_filterMap.mp ho
          rw [orderAt] at hdo
          split at hdo
          next ht =>
            cases hdo
            exact hs.newest d hd ht
          next => cases hdo
      rw [recordsAt, filterMap_cons_some hr, foldl_cons, ← recordsAt, ih,
        newerRecord_order, hmax]

/-- The newest covering tombstone carries the newest covering reset. -/
theorem newestReset_eq_fold (h : Chronicle es) (range : Range) :
    ((recordsAt es range.covering).foldl newerRecord none).map (fun r => r.entry.order) =
      newestReset es range := by
  rw [foldl_newerRecord_order h, newestReset]
  simp only [Option.map_none, Option.max_none_left]
  congr 1
  exact filterMap_congr fun e _ => orderAt_covering range e

theorem maxVer_eq_max (a b : Option Ver) : maxVer a b = max a b := by
  cases a <;> cases b <;> rfl

/-- The optional maximum of the versions that pass a test. -/
def topVer? (p : Entry → Bool) (es : List Entry) : Option Ver :=
  ((es.filter p).map AdmittedEntry.ver).max?

theorem topVer?_append (p : Entry → Bool) (es ds : List Entry) :
    topVer? p (es ++ ds) = max (topVer? p es) (topVer? p ds) := by
  rw [topVer?, filter_append, map_append, max?_append]
  rfl

variable {p : Entry → Bool}

theorem topVer?_of_none (h : ∀ e ∈ es, p e = false) : topVer? p es = none := by
  rw [topVer?, filter_eq_nil_iff.mpr fun e he => by simp [h e he]]
  rfl

theorem topVer?_of_mem (he : e ∈ es) (hp : p e = true) :
    topVer? p es = some (top AdmittedEntry.ver p es) :=
  max?_eq_some_greatest (ne_nil_of_mem
    (mem_map_of_mem (mem_filter.mpr ⟨he, hp⟩)))

theorem topVer?_or (p q : Entry → Bool) (es : List Entry) :
    topVer? (fun e => p e || q e) es = max (topVer? p es) (topVer? q es) := by
  rw [topVer?, topVer?, topVer?, ← max?_append]
  refine max?_congr fun v => ?_
  simp only [mem_append, mem_map, mem_filter, Bool.or_eq_true]
  constructor
  · rintro ⟨e, ⟨he, hp | hq⟩, rfl⟩
    · exact Or.inl ⟨e, ⟨he, hp⟩, rfl⟩
    · exact Or.inr ⟨e, ⟨he, hq⟩, rfl⟩
  · rintro (⟨e, ⟨he, hp⟩, rfl⟩ | ⟨e, ⟨he, hq⟩, rfl⟩)
    · exact ⟨e, ⟨he, Or.inl hp⟩, rfl⟩
    · exact ⟨e, ⟨he, Or.inr hq⟩, rfl⟩

theorem topVer?_congr {q : Entry → Bool} (h : ∀ e ∈ es, p e = q e) :
    topVer? p es = topVer? q es := by
  rw [topVer?, filter_congr h]
  rfl

/-- A running maximum over staged events. -/
theorem stagedMaxVer_eq (es : List Entry) (p : Entry → Bool) : stagedMaxVer es p = topVer? p es := by
  have h : (fun acc (e : Entry) => maxVer acc (some e.ver)) =
      fun acc e => max acc (some e.ver) := by
    funext acc e
    exact maxVer_eq_max _ _
  rw [stagedMaxVer, h, foldl_max_some, Option.max_none_left]
  rfl

/-- Folding the version floors of the tombstones at the ranges. -/
theorem foldl_maxVer_recordsAt (h : Chronicle es) (ranges : List Range) (init : Option Ver) :
    (recordsAt es ranges).foldl (fun acc record => maxVer acc (some record.maxVer)) init =
      max init (topVer? (targets ranges) es) := by
  induction ranges generalizing init with
  | nil =>
    rw [topVer?_of_none fun e _ => by unfold targets; cases e.mutation <;> simp]
    simp [recordsAt]
  | cons range ranges ih =>
    rw [topVer?_congr fun e _ => targets_cons range ranges e, topVer?_or, ← option_max_assoc]
    cases hr : rangeOf es range with
    | none =>
      rw [recordsAt, filterMap_cons_none hr, ← recordsAt, ih,
        topVer?_of_none fun e he => targets_of_rangeOf_none h hr he, Option.max_none_right]
    | some record =>
      have hs := rangeSummary_of_eq_some h hr
      rw [recordsAt, filterMap_cons_some hr, foldl_cons, ← recordsAt, ih, maxVer_eq_max,
        topVer?_of_mem hs.mem (targets_singleton_iff.mpr hs.target), hs.ver]

end Homebase.Ledger
