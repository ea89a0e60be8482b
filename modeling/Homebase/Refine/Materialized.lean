import Homebase.Ledger.Aggregate

set_option autoImplicit false

/-!
# Refine: stores that hold the records of a chronicle

`Materialized space store es` says that the data, tombstone and aggregate records
of a store are those the entries `es` summarise to.  Over such a store every
reader of the data plane has one specification lemma, in terms of the entries
alone; none of its `expect`s can fire.

Admission reads the store together with the events it has staged but not yet
written.  The specifications of those readers are stated over `es ++ ss`, with
`ss` the staged events: a staged overlay denotes the longer chronicle.
-/

namespace Homebase.Refine

open Foundation Homebase.Core Server Ledger List

/-- The bytes of the data record of a point operation. -/
def pointBytes (e : Entry) : Bytes :=
  if h : e.mutation.isDeleteRange = false then (DataRecord.mk e h).encode else []

/-- The data record of an entry, if it is a point operation. -/
def toData? (e : Entry) : Option DataRecord :=
  if h : e.mutation.isDeleteRange = false then some ⟨e, h⟩ else none

/-- The data record of a key after the entries. -/
def dataOf (es : List Entry) (key : Key) : Option DataRecord := (lastPoint es key).bind toData?

variable {e : Entry} {key : Key}

theorem isDeleteRange_of_pointKey (h : e.mutation.pointKey = some key) :
    e.mutation.isDeleteRange = false := by
  cases hm : e.mutation with
  | set k value => rfl
  | delete k => rfl
  | deleteRange range =>
    rw [hm] at h
    cases h

@[simp] theorem map_entry_dataOf (es : List Entry) (key : Key) :
    (dataOf es key).map DataRecord.entry = lastPoint es key := by
  unfold dataOf
  cases h : lastPoint es key with
  | none => rfl
  | some e => simp [toData?, isDeleteRange_of_pointKey (mem_of_lastPoint h).2]

variable {es : List Entry}

theorem dataOf_eq_some {record : DataRecord} (h : dataOf es key = some record) :
    lastPoint es key = some record.entry ∧ record.key = key := by
  have hlast : lastPoint es key = some record.entry := by
    rw [← map_entry_dataOf, h]
    rfl
  refine ⟨hlast, ?_⟩
  have hkey := (mem_of_lastPoint hlast).2
  rw [record.pointKey_eq] at hkey
  exact Option.some.inj hkey

/-- The store holds exactly the records the entries summarise to. -/
structure Materialized (space : SpaceId) (store : Store) (es : List Entry) : Prop where
  data : ∀ key, store.get (dataKey space key) = (lastPoint es key).map pointBytes
  ranges : ∀ range, store.get (rangeDeleteKey space range) =
    (rangeOf es range).map RangeDeleteRecord.encode
  aggregates : ∀ range, store.get (aggregateKey space range) =
    (metaOf es range).map PrefixMetaRecord.encode

/-- The stored bytes of a last point operation read back under its key. -/
theorem decode_pointBytes (hc : Chronicle es) (h : lastPoint es key = some e)
    (hpoint : e.mutation.isDeleteRange = false) :
    DataRecord.decode key (pointBytes e) = some ⟨e, hpoint⟩ := by
  obtain ⟨hmem, hkey⟩ := mem_of_lastPoint h
  have hrec := @DataRecord.decode_encode ⟨e, hpoint⟩ (hc.sealed e hmem)
  have hk : (DataRecord.mk e hpoint).key = key := by
    have := (DataRecord.mk e hpoint).pointKey_eq
    rw [hkey] at this
    exact (Option.some.inj this).symm
  rw [hk] at hrec
  rw [pointBytes, dif_pos hpoint]
  exact hrec

theorem rangeDelete_decode (hc : Chronicle es) {range : Range} {record : RangeDeleteRecord}
    (hr : rangeOf es range = some record) :
    RangeDeleteRecord.decode range record.encode = some record := by
  have hs := rangeSummary_of_eq_some hc hr
  exact RangeDeleteRecord.decode_encode hs.coherent (hc.sealed _ hs.mem) hs.target

theorem rangeCoversKey_eq (key : Key) (e : Entry) :
    rangeCoversKey key e = targets (Range.prefixed key).covering e := by
  rw [targets_covering]
  unfold rangeCoversKey resets resetOrder
  cases e.mutation with
  | set k value => rfl
  | delete k => rfl
  | deleteRange range => cases h : range.coversKey key <;> simp [Range.coversRange_prefixed, h]

variable {space : SpaceId} {store : Store}

theorem readRecord_aggregate (hm : Materialized space store es) (range : Range) (message : String) :
    readRecord store (aggregateKey space range) PrefixMetaRecord.decode message =
      .ok (metaOf es range) := by
  cases h : metaOf es range with
  | none => exact readRecord_of_get_none _ _ (by rw [hm.aggregates, h]; rfl)
  | some record =>
    have hvalid : record.history.valid = true := by
      have := (metaSummary es range).valid
      rwa [metaRecord, h] at this
    exact readRecord_of_get_some _ (by rw [hm.aggregates, h]; rfl)
      (PrefixMetaRecord.decode_encode hvalid)

theorem aggregate_spec (hm : Materialized space store es) (range : Range) :
    aggregate space store range = .ok (metaRecord es range) := by
  rw [aggregate, readRecord_aggregate hm]
  rfl

section Readers

variable {space : SpaceId} {store : Store} {es : List Entry}
  (hm : Materialized space store es) (hc : Chronicle es)

include hm hc

/-! ## Records -/

theorem data_spec (key : Key) : data space store key = .ok (dataOf es key) := by
  cases h : lastPoint es key with
  | none =>
    have hget : store.get (dataKey space key) = none := by rw [hm.data, h]; rfl
    rw [data, readRecord_of_get_none _ _ hget, dataOf, h]
    rfl
  | some e =>
    have hpoint := isDeleteRange_of_pointKey (mem_of_lastPoint h).2
    have hdecode := decode_pointBytes hc h hpoint
    have hget : store.get (dataKey space key) = some (pointBytes e) := by rw [hm.data, h]; rfl
    rw [data, readRecord_of_get_some _ hget hdecode, dataOf, h]
    simp [toData?, hpoint]

theorem rangeDelete_spec (range : Range) :
    rangeDelete space store range = .ok (rangeOf es range) := by
  cases h : rangeOf es range with
  | none =>
    have hget : store.get (rangeDeleteKey space range) = none := by rw [hm.ranges, h]; rfl
    rw [rangeDelete, readRecord_of_get_none _ _ hget]
  | some record =>
    have hget : store.get (rangeDeleteKey space range) = some record.encode := by
      rw [hm.ranges, h]
      rfl
    rw [rangeDelete, readRecord_of_get_some _ hget (rangeDelete_decode hc h)]

/-! ## Folds over the covering tombstones -/

variable {σ : Type}

theorem visitCovering_spec (fold : σ → RangeDeleteRecord → σ) (acc : σ) (range : Range) :
    visitCovering store fold acc (rangeDeleteKey space range) =
      .ok ((rangeOf es range).elim acc (fold acc)) := by
  cases h : rangeOf es range with
  | none =>
    have hget : store.get (rangeDeleteKey space range) = none := by rw [hm.ranges, h]; rfl
    simp [visitCovering, hget]
  | some record =>
    have hget : store.get (rangeDeleteKey space range) = some record.encode := by
      rw [hm.ranges, h]
      rfl
    simp only [visitCovering, hget, rangeDeleteParts_rangeDeleteKey, expect_some,
      ok_bind, rangeDelete_decode hc h, Option.elim_some]

theorem foldlM_visitCovering (fold : σ → RangeDeleteRecord → σ) (ranges : List Range) (init : σ) :
    (ranges.map (rangeDeleteKey space)).foldlM (visitCovering store fold) init =
      .ok ((recordsAt es ranges).foldl fold init) := by
  induction ranges generalizing init with
  | nil => rfl
  | cons range ranges ih =>
    rw [map_cons, foldlM_cons, visitCovering_spec hm hc]
    cases h : rangeOf es range with
    | none =>
      rw [recordsAt, filterMap_cons_none h]
      exact ih init
    | some record =>
      rw [recordsAt, filterMap_cons_some h, foldl_cons]
      exact ih (fold init record)

theorem forCovering_spec (fold : σ → RangeDeleteRecord → σ) (range : Range) (init : σ) :
    forCovering space store range fold init =
      .ok ((recordsAt es range.covering).foldl fold init) :=
  foldlM_visitCovering hm hc fold range.covering init

theorem coveringRangeDelete_spec (range : Range) :
    ∃ newest, coveringRangeDelete space store range = .ok newest ∧
      newest.map (fun record => record.entry.order) = newestReset es range :=
  ⟨_, forCovering_spec hm hc _ _ _, newestReset_eq_fold hc range⟩

theorem coveringRangeMaxVer_spec (key : Key) :
    coveringRangeMaxVer space store key = .ok (topVer? (rangeCoversKey key) es) := by
  rw [coveringRangeMaxVer, forCovering_spec hm hc, foldl_maxVer_recordsAt hc,
    Option.max_none_left, topVer?_congr fun e _ => (rangeCoversKey_eq key e).symm]

theorem effectiveHistory_spec (range : Range) :
    effectiveHistory space store range = .ok (effective es range) := by
  rw [effectiveHistory, aggregate_spec hm]
  exact forCovering_spec hm hc _ _ _

theorem effectiveLiveCount_spec (range : Range) :
    effectiveLiveCount space store range = .ok (U64.ofNat (countUnder (replay es) range)) := by
  obtain ⟨newest, hnewest, hreset⟩ := coveringRangeDelete_spec hm hc range
  rw [effectiveLiveCount, aggregate_spec hm, hnewest, ← materialized_liveCount hc range,
    materialized_liveCount_eq, ← hreset]
  rfl

theorem newestCoveringReset_spec (range : Range) (ss : List Entry) :
    newestCoveringReset space store range ss = .ok (newestReset (es ++ ss) range) := by
  obtain ⟨newest, hnewest, hreset⟩ := coveringRangeDelete_spec hm hc range
  have hfold : (fun (acc : Option AdmissionOrder) order =>
      some (acc.elim order fun current => max current order)) =
        fun acc order => max acc (some (id order)) := by
    funext acc order
    cases acc <;> rfl
  rw [newestCoveringReset, hnewest, newestReset_append, ← hreset]
  simp only [ok_bind, hfold, foldl_max_some, map_id]
  rfl

/-! ## Visibility -/

theorem pointRecordVisible_spec (record : DataRecord) :
    pointRecordVisible space store record = .ok (shows es record.key record.entry) := by
  obtain ⟨newest, hnewest, hreset⟩ := coveringRangeDelete_spec hm hc (.prefixed record.key)
  unfold pointRecordVisible shows
  cases hset : record.entry.mutation.isSet with
  | false => rfl
  | true =>
    rw [if_pos rfl, hnewest, ← hreset]
    cases newest <;> rfl

omit hc in
theorem pointRecordVisibleWithEvents_spec {ss : List Entry} (hcs : Chronicle (es ++ ss))
    (key : Key) : pointRecordVisibleWithEvents space store (dataOf (es ++ ss) key) ss =
      .ok ((replay (es ++ ss)).get key).isSome := by
  rw [get_replay hcs]
  cases h : dataOf (es ++ ss) key with
  | none =>
    have hnone : lastPoint (es ++ ss) key = none := by rw [← map_entry_dataOf, h]; rfl
    rw [hnone]
    rfl
  | some record =>
    obtain ⟨hlast, hkey⟩ := dataOf_eq_some h
    rw [hlast, Option.filter_some]
    simp only [pointRecordVisibleWithEvents, hkey, newestCoveringReset_spec hm hcs.of_append_left,
      ok_bind]
    unfold shows
    cases hset : record.entry.mutation.isSet with
    | false => rfl
    | true =>
      simp only [Bool.true_and, if_true, gt_iff_lt]
      cases hall : Option.all (fun reset => decide (reset < record.entry.order))
        (newestReset (es ++ ss) (.prefixed key)) <;> simp

theorem getOne_spec (key : Key) : getOne space store key = .ok ((replay es).get key) := by
  rw [getOne, data_spec hm hc, get_replay hc]
  cases h : dataOf es key with
  | none =>
    have hnone : lastPoint es key = none := by rw [← map_entry_dataOf, h]; rfl
    rw [hnone]
    rfl
  | some record =>
    obtain ⟨hlast, hkey⟩ := dataOf_eq_some h
    rw [hlast, Option.filter_some]
    simp only [ok_bind, pointRecordVisible_spec hm hc, hkey]

theorem get_spec (req : GetRequest) :
    Server.get space store req = .ok ⟨req.keys.map (replay es).get⟩ := by
  rw [Server.get, mapM_eq_ok fun key _ => getOne_spec hm hc key]
  rfl

end Readers

end Homebase.Refine
