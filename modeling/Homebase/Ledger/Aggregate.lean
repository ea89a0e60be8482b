import Homebase.Ledger.Summary

set_option autoImplicit false

/-!
# Ledger: the aggregates of the prefix tree

Every node of the prefix tree (the Full root and each prefix) keeps a history, a
version floor, a live count and the position through which the count is
materialized.  A range deletion updates its target and the ancestors and leaves
every descendant stale.  `metaOf` is the resulting record of a node as a function
of the entries; `materialized_liveCount` is the law that makes lazy counts exact:
a record whose epoch lies before the newest covering reset counts zero, and any
other record counts the visible keys.
-/

namespace Homebase.Ledger

open Foundation Homebase.Core Server List

/-- The record of a node after one more entry that touches it. -/
def metaObserved (record : PrefixMetaRecord) (live : OrdMap Key Entry) (range : Range)
    (e : Entry) : PrefixMetaRecord where
  history := record.history.observe e.device e.seq
  maxVer := max record.maxVer e.ver
  liveCount := U64.ofNat (countUnder live range)
  countEpoch := e.order

/-- One entry folded into the visible state and the record of a node. -/
def metaStep (range : Range) (acc : OrdMap Key Entry × Option PrefixMetaRecord) (e : Entry) :
    OrdMap Key Entry × Option PrefixMetaRecord :=
  let live := applyEvent acc.1 e
  (live, if touches range e then
      some (metaObserved (acc.2.getD PrefixMetaRecord.empty) live range e)
    else acc.2)

/-- The aggregate of a node after the entries; `none` before anything touched it. -/
def metaOf (es : List Entry) (range : Range) : Option PrefixMetaRecord :=
  (es.foldl (metaStep range) (OrdMap.empty, none)).2

/-- The aggregate of a node, or the empty one. -/
def metaRecord (es : List Entry) (range : Range) : PrefixMetaRecord :=
  (metaOf es range).getD PrefixMetaRecord.empty

@[simp] theorem metaOf_nil (range : Range) : metaOf [] range = none := rfl

theorem foldl_metaStep_fst (es : List Entry) (range : Range) :
    (es.foldl (metaStep range) (OrdMap.empty, none)).1 = replay es := by
  induction es using List.reverseRecOn with
  | nil => rfl
  | append_singleton es e ih =>
    rw [foldl_append, replay_concat, ← ih]
    rfl

theorem metaOf_concat (es : List Entry) (e : Entry) (range : Range) :
    metaOf (es ++ [e]) range =
      if touches range e then
        some (metaObserved (metaRecord es range) (replay (es ++ [e])) range e)
      else metaOf es range := by
  rw [metaOf, foldl_append, foldl_cons, foldl_nil, metaStep, foldl_metaStep_fst,
    ← replay_concat]
  rfl

variable {es : List Entry} {e : Entry} {range : Range}

theorem metaRecord_concat_of_touches (h : touches range e = true) :
    metaRecord (es ++ [e]) range =
      metaObserved (metaRecord es range) (replay (es ++ [e])) range e := by
  rw [metaRecord, metaOf_concat, if_pos h]
  rfl

theorem metaRecord_concat_of_not_touches (h : touches range e = false) :
    metaRecord (es ++ [e]) range = metaRecord es range := by
  rw [metaRecord, metaOf_concat, h]
  rfl

/-! ## Histories and version floors -/

/-- What the aggregate of a node says about the entries under it. -/
structure MetaSummary (es : List Entry) (range : Range) : Prop where
  valid : (metaRecord es range).history.valid = true
  excluding : ∀ device, (metaRecord es range).history.maxExcluding device =
    top AdmittedEntry.seq (fun e => touches range e && decide (e.device ≠ device)) es
  maxSeq : (metaRecord es range).history.maxAdmissionSeq =
    top AdmittedEntry.seq (touches range) es
  ver : (metaRecord es range).maxVer = top AdmittedEntry.ver (touches range) es

theorem metaSummary (es : List Entry) (range : Range) : MetaSummary es range := by
  induction es using List.reverseRecOn with
  | nil =>
    constructor
    · exact HistoricalHeads.valid_empty
    · exact fun device => HistoricalHeads.maxExcluding_empty device
    · exact HistoricalHeads.maxAdmissionSeq_empty
    · rfl
  | append_singleton es e ih =>
    cases ht : touches range e with
    | false =>
      constructor
      · rw [metaRecord_concat_of_not_touches ht]
        exact ih.valid
      · intro device
        rw [metaRecord_concat_of_not_touches ht, ih.excluding, top_concat, ht]
        simp
      · rw [metaRecord_concat_of_not_touches ht, ih.maxSeq, top_concat, ht]
        simp
      · rw [metaRecord_concat_of_not_touches ht, ih.ver, top_concat, ht]
        simp
    | true =>
      constructor
      · rw [metaRecord_concat_of_touches ht]
        exact HistoricalHeads.valid_observe ih.valid _ _
      · intro device
        rw [metaRecord_concat_of_touches ht, metaObserved,
          HistoricalHeads.maxExcluding_observe ih.valid, ih.excluding, top_concat, ht]
        by_cases hdev : e.device = device <;> simp [hdev]
      · rw [metaRecord_concat_of_touches ht, metaObserved,
          HistoricalHeads.maxAdmissionSeq_observe ih.valid, ih.maxSeq, top_concat, ht]
        simp
      · rw [metaRecord_concat_of_touches ht, metaObserved, ih.ver, top_concat, ht]
        simp

/-- The effective history of a range, as a function of the entries. -/
def effective (es : List Entry) (range : Range) : EffectiveHistory :=
  (recordsAt es range.covering).foldl EffectiveHistory.mergeRecord
    ⟨(metaRecord es range).history, (metaRecord es range).maxVer⟩

/-- Merging the tombstones at some ranges adds the answers of their targets. -/
theorem foldl_mergeRecord (h : Chronicle es) (ranges : List Range) (init : EffectiveHistory)
    (hv : init.history.valid = true) :
    let result := (recordsAt es ranges).foldl EffectiveHistory.mergeRecord init
    result.history.valid = true ∧
    (∀ device, result.history.maxExcluding device = max (init.history.maxExcluding device)
      (top AdmittedEntry.seq (fun e => targets ranges e && decide (e.device ≠ device)) es)) ∧
    result.history.maxAdmissionSeq =
      max init.history.maxAdmissionSeq (top AdmittedEntry.seq (targets ranges) es) ∧
    result.maxVer = max init.maxVer (top AdmittedEntry.ver (targets ranges) es) := by
  induction ranges generalizing init with
  | nil =>
    have hnone : ∀ e : Entry, targets [] e = false := by
      intro e
      unfold targets
      cases e.mutation <;> simp
    refine ⟨hv, fun device => ?_, ?_, ?_⟩
    · rw [top_eq_zero_of_forall fun e _ => by rw [hnone, Bool.false_and]]
      exact (max_eq_left (Fin.zero_le _)).symm
    · rw [top_eq_zero_of_forall fun e _ => hnone e]
      exact (max_eq_left (Fin.zero_le _)).symm
    · rw [top_eq_zero_of_forall fun e _ => hnone e]
      exact (max_eq_left (Fin.zero_le _)).symm
  | cons range ranges ih =>
    have hsplit : ∀ device e, (targets (range :: ranges) e && decide (e.device ≠ device)) =
        ((targets [range] e && decide (e.device ≠ device)) ||
          (targets ranges e && decide (e.device ≠ device))) := by
      intro device e
      rw [targets_cons, Bool.and_or_distrib_right]
    simp only [top_congr fun e _ => hsplit _ e, top_congr fun e _ => targets_cons range ranges e,
      top_or, ← max_assoc]
    cases hr : rangeOf es range with
    | none =>
      have hnone : ∀ e ∈ es, targets [range] e = false :=
        fun e he => targets_of_rangeOf_none h hr he
      have hzero : ∀ x : U64, max x 0 = x := fun x => max_eq_left (Fin.zero_le _)
      rw [recordsAt, filterMap_cons_none hr, ← recordsAt]
      simp only [top_eq_zero_of_forall hnone, hzero]
      refine ⟨(ih init hv).1, fun device => ?_, (ih init hv).2.2⟩
      have hnone' : top AdmittedEntry.seq
          (fun e => targets [range] e && decide (e.device ≠ device)) es = 0 :=
        top_eq_zero_of_forall fun e he => by rw [hnone e he, Bool.false_and]
      rw [(ih init hv).2.1, hnone', hzero]
    | some record =>
      have hs := rangeSummary_of_eq_some h hr
      have hv' : (init.mergeRecord record).history.valid = true :=
        HistoricalHeads.valid_merge hv _
      have hmax : record.history.maxAdmissionSeq =
          top AdmittedEntry.seq (targets [range]) es := by
        rw [hs.coherent.maxAdmissionSeq]
        refine le_antisymm (le_top_of_mem hs.mem (targets_singleton_iff.mpr hs.target)) ?_
        rw [top_le_iff]
        intro d hd ht
        rcases (hs.newest d hd ht).lt_or_eq with hlt | heq
        · exact AdmittedEntry.seq_le_of_order_lt hlt
        · rw [h.eq_of_order_eq hd hs.mem heq]
      obtain ⟨h1, h2, h3, h4⟩ := ih (init.mergeRecord record) hv'
      rw [recordsAt, filterMap_cons_some hr, foldl_cons, ← recordsAt]
      refine ⟨h1, fun device => ?_, ?_, ?_⟩
      · rw [h2, EffectiveHistory.mergeRecord,
          HistoricalHeads.maxExcluding_merge hv hs.coherent.valid, hs.excluding]
      · rw [h3, EffectiveHistory.mergeRecord, HistoricalHeads.maxAdmissionSeq_merge hv, hmax]
      · rw [h4, EffectiveHistory.mergeRecord, hs.ver]

/-- The greatest admission relevant to a range by a device other than the given one. -/
def foreignMax (es : List Entry) (range : Range) (device : DeviceId) : AdmissionSeq :=
  top AdmittedEntry.seq (fun e => relevant range e && decide (e.device ≠ device)) es

theorem effective_maxExcluding (h : Chronicle es) (range : Range) (device : DeviceId) :
    (effective es range).maxExcluding device = foreignMax es range device := by
  have hs := metaSummary es range
  rw [EffectiveHistory.maxExcluding, effective, (foldl_mergeRecord h _ _ hs.valid).2.1,
    hs.excluding, ← top_or, foreignMax]
  refine top_congr fun e _ => ?_
  rw [relevant_eq, Bool.and_or_distrib_right]

theorem effective_maxAdmissionSeq (h : Chronicle es) (range : Range) :
    (effective es range).history.maxAdmissionSeq = top AdmittedEntry.seq (relevant range) es := by
  have hs := metaSummary es range
  rw [effective, (foldl_mergeRecord h _ _ hs.valid).2.2.1, hs.maxSeq, ← top_or]
  exact top_congr fun e _ => (relevant_eq range e).symm

theorem effective_maxVer (h : Chronicle es) (range : Range) :
    (effective es range).maxVer = top AdmittedEntry.ver (relevant range) es := by
  have hs := metaSummary es range
  rw [effective, (foldl_mergeRecord h _ _ hs.valid).2.2.2, hs.ver, ← top_or]
  exact top_congr fun e _ => (relevant_eq range e).symm

/-! ## Lazy live counts -/

/-- An aggregate brought up to a reset: `materialize_aggregate` on one record. -/
def materialized (record : PrefixMetaRecord) : Option AdmissionOrder → PrefixMetaRecord
  | none => record
  | some reset =>
      if record.countEpoch < reset then { record with liveCount := 0, countEpoch := reset }
      else record

@[simp] theorem materialized_history (record : PrefixMetaRecord) (reset : Option AdmissionOrder) :
    (materialized record reset).history = record.history := by
  cases reset with
  | none => rfl
  | some o => simp only [materialized]; split <;> rfl

@[simp] theorem materialized_maxVer (record : PrefixMetaRecord) (reset : Option AdmissionOrder) :
    (materialized record reset).maxVer = record.maxVer := by
  cases reset with
  | none => rfl
  | some o => simp only [materialized]; split <;> rfl

theorem materialized_of_le {record : PrefixMetaRecord} {o : AdmissionOrder}
    (h : o ≤ record.countEpoch) : materialized record (some o) = record :=
  if_neg (not_lt.mpr h)

/-- The live count read off a record and a reset, as `effective_live_count` does. -/
theorem materialized_liveCount_eq (record : PrefixMetaRecord) (reset : Option AdmissionOrder) :
    (materialized record reset).liveCount =
      if (reset.any fun reset => decide (record.countEpoch < reset)) then 0
      else record.liveCount := by
  cases reset with
  | none => rfl
  | some o => by_cases h : record.countEpoch < o <;> simp [materialized, h]

/-- A count is materialized through a position of the log, if at all. -/
theorem metaRecord_countEpoch (es : List Entry) (range : Range) :
    (metaRecord es range).countEpoch = AdmissionOrder.zero ∨
      ∃ d ∈ es, d.order = (metaRecord es range).countEpoch := by
  induction es using List.reverseRecOn with
  | nil => exact Or.inl rfl
  | append_singleton es e ih =>
    cases ht : touches range e with
    | true =>
      rw [metaRecord_concat_of_touches ht]
      exact Or.inr ⟨e, by simp, rfl⟩
    | false =>
      rw [metaRecord_concat_of_not_touches ht]
      rcases ih with hz | ⟨d, hd, ho⟩
      · exact Or.inl hz
      · exact Or.inr ⟨d, mem_append_left _ hd, ho⟩

/-- Every count is materialized before the next entry. -/
theorem countEpoch_lt_last (h : Chronicle (es ++ [e])) (range : Range) :
    (metaRecord es range).countEpoch < e.order := by
  rcases metaRecord_countEpoch es range with hz | ⟨d, hd, ho⟩
  · rw [hz]
    exact h.zero_lt_order (by simp)
  · rw [← ho]
    exact h.order_lt_last hd

theorem materialized_countEpoch_lt_last (h : Chronicle (es ++ [e])) (range : Range) :
    (materialized (metaRecord es range) (newestReset es range)).countEpoch < e.order := by
  cases hr : newestReset es range with
  | none => exact countEpoch_lt_last h range
  | some o =>
    simp only [materialized]
    split
    · obtain ⟨d, hd, rfl⟩ := mem_of_newestReset hr
      exact h.order_lt_last hd
    · exact countEpoch_lt_last h range

variable {key : Key}

theorem touches_of_pointKey (hk : e.mutation.pointKey = some key) (range : Range) :
    touches range e = range.coversKey key := by
  unfold touches
  cases hm : e.mutation <;> simp_all [Mutation.pointKey]

theorem resetOrder_of_pointKey (hk : e.mutation.pointKey = some key) (range : Range) :
    resetOrder range e = none := by
  unfold resetOrder
  cases hm : e.mutation <;> simp_all [Mutation.pointKey]

/-- Lazy live counts are exact. -/
theorem materialized_liveCount (h : Chronicle es) (range : Range) :
    (materialized (metaRecord es range) (newestReset es range)).liveCount =
      U64.ofNat (countUnder (replay es) range) := by
  refine Chronicle.concat_induction (motive := fun es =>
    (materialized (metaRecord es range) (newestReset es range)).liveCount =
      U64.ofNat (countUnder (replay es) range)) rfl ?_ h
  intro es e h ih
  cases ht : touches range e with
  | true =>
    -- the record is materialized through the last entry, and no reset is newer
    rw [metaRecord_concat_of_touches ht]
    cases hr : newestReset (es ++ [e]) range with
    | none => rfl
    | some o =>
      obtain ⟨d, hd, rfl⟩ := mem_of_newestReset hr
      rw [materialized_of_le]
      · rfl
      · rcases mem_append.mp hd with hd | hd
        · exact (h.order_lt_last hd).le
        · rw [mem_singleton.mp hd]
          exact le_rfl
  | false =>
    rw [metaRecord_concat_of_not_touches ht, replay_concat]
    have hframe : resetOrder range e = none →
        countUnder (applyEvent (replay es) e) range = countUnder (replay es) range →
        (materialized (metaRecord es range) (newestReset (es ++ [e]) range)).liveCount =
          U64.ofNat (countUnder (applyEvent (replay es) e) range) := by
      intro hr hc
      rw [newestReset_concat_of_none hr, hc, ih]
    have hpoint : ∀ key, e.mutation.pointKey = some key → 
        (materialized (metaRecord es range) (newestReset (es ++ [e]) range)).liveCount =
          U64.ofNat (countUnder (applyEvent (replay es) e) range) := by
      intro key hk
      refine hframe (resetOrder_of_pointKey hk range) ?_
      have hcount := countUnder_point (replay es) hk range
      rw [touches_of_pointKey hk] at ht
      rw [ht] at hcount
      simpa using hcount
    cases hm : e.mutation with
    | set key value => exact hpoint key (by rw [hm]; rfl)
    | delete key => exact hpoint key (by rw [hm]; rfl)
    | deleteRange target =>
      have hncov : range.coversRange target = false := by
        simpa [touches, hm] using ht
      cases hcov : target.coversRange range with
      | true =>
        -- the whole range is reset: its record is stale and its keys are gone
        have hr : resetOrder range e = some e.order := by simp [resetOrder, hm, hcov]
        rw [newestReset_concat_of_some h hr, countUnder_range_of_covered hm hcov,
          materialized_liveCount_eq]
        simp [countEpoch_lt_last h range, U64.ofNat]
      | false =>
        refine hframe (by simp [resetOrder, hm, hcov]) ?_
        exact countUnder_range_of_disjoint hm (by simp [Range.overlaps, hncov, hcov])

end Homebase.Ledger
