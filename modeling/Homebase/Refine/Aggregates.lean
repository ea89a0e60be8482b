import Homebase.Ledger.Admission
import Homebase.Refine.Materialized

set_option autoImplicit false

/-!
# Refine: the aggregate path of one admitted operation

`apply_point_count` and `apply_range_count` walk the path from the Full root to a
node, load each aggregate into the staged map, bring it up to the newest covering
reset, and count.  Both are specified as one bulk insertion: every node of the
path receives the aggregate of the chronicle extended by the operation.
-/

namespace Homebase.Refine

open Foundation Homebase.Core Server Ledger List

/-! ## Frames of the summaries -/

variable {es ss : List Entry} {range : Range}

theorem metaOf_append_of_not_touches (h : ∀ d ∈ ss, touches range d = false) :
    metaOf (es ++ ss) range = metaOf es range := by
  induction ss using List.reverseRecOn with
  | nil => rw [append_nil]
  | append_singleton ss d ih =>
    rw [← append_assoc, metaOf_concat, h d (by simp),
      ih fun c hc => h c (mem_append_left _ hc)]
    simp

theorem rangeOf_append_of_not_targets (h : ∀ d ∈ ss, targets [range] d = false) :
    rangeOf (es ++ ss) range = rangeOf es range := by
  induction ss using List.reverseRecOn with
  | nil => rw [append_nil]
  | append_singleton ss d ih =>
    have hd : d.mutation ≠ .deleteRange range := fun hm => by
      have := h d (by simp)
      rw [targets_singleton_iff.mpr hm] at this
      cases this
    rw [← append_assoc, rangeOf_concat_of_ne hd,
      ih fun c hc => h c (mem_append_left _ hc)]

variable {e : Entry}

theorem metaOf_isSome_of_touches (he : e ∈ es) (ht : touches range e = true) :
    (metaOf es range).isSome = true := by
  induction es using List.reverseRecOn with
  | nil => cases he
  | append_singleton es d ih =>
    rw [metaOf_concat]
    split
    · rfl
    · rename_i hd
      rcases mem_append.mp he with he | he
      · exact ih he
      · rw [← mem_singleton.mp he] at hd
        exact absurd ht hd

/-! ## Bulk insertion along a path -/

theorem aggregate_encode (space : SpaceId) (range : Range) :
    (StorageKey.aggregate range).encode space = aggregateKey space range := by
  cases range <;> rfl

theorem aggregateKey_injective (space : SpaceId) : Function.Injective (aggregateKey space) := by
  intro a b h
  rw [← aggregate_encode, ← aggregate_encode] at h
  exact StorageKey.aggregate.inj (StorageKey.encode_injective space h)

/-- One record inserted at every listed node. -/
def insertNodes (space : SpaceId) (record : Range → PrefixMetaRecord) (staged : Aggregates)
    (nodes : List Range) : Aggregates :=
  nodes.foldl (fun staged node => staged.insert (aggregateKey space node) (record node)) staged

theorem get_insertNodes (space : SpaceId) (record : Range → PrefixMetaRecord)
    (staged : Aggregates) (nodes : List Range) (range : Range) :
    (insertNodes space record staged nodes).get (aggregateKey space range) =
      if range ∈ nodes then some (record range) else staged.get (aggregateKey space range) := by
  induction nodes generalizing staged with
  | nil => rfl
  | cons node nodes ih =>
    rw [insertNodes, foldl_cons, ← insertNodes, ih, OrdMap.get_insert]
    by_cases hmem : range ∈ nodes
    · simp [hmem]
    · by_cases heq : range = node
      · simp [heq]
      · have hne : aggregateKey space range ≠ aggregateKey space node :=
          fun h => heq (aggregateKey_injective space h)
        simp [hmem, heq, hne]

theorem key_of_get_insertNodes {space : SpaceId} {record : Range → PrefixMetaRecord}
    {staged : Aggregates} {nodes : List Range} {b : Bytes} {r : PrefixMetaRecord}
    (hstaged : ∀ b r, staged.get b = some r → ∃ range, b = aggregateKey space range)
    (h : (insertNodes space record staged nodes).get b = some r) :
    ∃ range, b = aggregateKey space range := by
  induction nodes generalizing staged with
  | nil => exact hstaged b r h
  | cons node nodes ih =>
    refine ih (fun b r hget => ?_) h
    rw [OrdMap.get_insert] at hget
    split at hget
    next heq => exact ⟨node, heq⟩
    next => exact hstaged b r hget

/-! ## Loading and materializing -/

/-- What the staged map holds at a node: the aggregate of the longer chronicle,
once a staged event touched the node. -/
def overlay (es ss : List Entry) (range : Range) : Option PrefixMetaRecord :=
  if ss.any (touches range) then metaOf (es ++ ss) range else none

/-- The aggregate of a node brought up to its newest reset. -/
def currentRecord (es : List Entry) (range : Range) : PrefixMetaRecord :=
  materialized (metaRecord es range) (newestReset es range)

section Path

variable {space : SpaceId} {store : Store} {es ss : List Entry}
  (hm : Materialized space store es)

include hm

variable {staged : Aggregates} {range : Range}

theorem loadAggregate_spec (hget : staged.get (aggregateKey space range) = overlay es ss range) :
    loadAggregate store staged (aggregateKey space range) =
      .ok (staged.insert (aggregateKey space range) (metaRecord (es ++ ss) range)) := by
  unfold loadAggregate
  unfold overlay at hget
  split at hget
  next hany =>
    obtain ⟨d, hd, ht⟩ := any_eq_true.mp hany
    obtain ⟨record, hrecord⟩ := Option.isSome_iff_exists.mp
      (metaOf_isSome_of_touches (mem_append_right es hd) ht)
    rw [hrecord] at hget
    have hcontains : staged.contains (aggregateKey space range) = true := by
      rw [OrdMap.contains, hget]
      rfl
    rw [if_pos hcontains, metaRecord, hrecord, Option.getD_some, OrdMap.insert_of_get hget]
  next hany =>
    have hnot : ∀ d ∈ ss, touches range d = false := by
      intro d hd
      by_contra ht
      exact hany (any_eq_true.mpr ⟨d, hd, by simpa using ht⟩)
    have hcontains : ¬ staged.contains (aggregateKey space range) = true := by
      rw [OrdMap.contains, hget]
      simp
    rw [if_neg hcontains, readRecord_aggregate hm, ok_bind, metaRecord,
      metaOf_append_of_not_touches hnot]

variable (hc : Chronicle es)

include hc

theorem materializeAggregate_spec
    (hget : staged.get (aggregateKey space range) = overlay es ss range) :
    materializeAggregate space store ss staged (range, aggregateKey space range) =
      .ok (staged.insert (aggregateKey space range) (currentRecord (es ++ ss) range)) := by
  simp only [materializeAggregate, loadAggregate_spec hm hget, ok_bind,
    newestCoveringReset_spec hm hc, currentRecord]
  cases hreset : newestReset (es ++ ss) range with
  | none => rfl
  | some reset =>
    simp only [OrdMap.get_insert_self, expect_some, ok_bind, materialized]
    split <;> simp

/-- Materializing a path inserts the current record of every node. -/
theorem foldlM_materializeAggregate {nodes : List Range} (hnodup : nodes.Nodup)
    (hget : ∀ range ∈ nodes, staged.get (aggregateKey space range) = overlay es ss range) :
    (nodes.map fun node => (node, aggregateKey space node)).foldlM
        (materializeAggregate space store ss) staged =
      .ok (insertNodes space (currentRecord (es ++ ss)) staged nodes) := by
  induction nodes generalizing staged with
  | nil => rfl
  | cons node nodes ih =>
    obtain ⟨hnot, hnodup⟩ := nodup_cons.mp hnodup
    rw [map_cons, foldlM_cons,
      materializeAggregate_spec hm hc (hget node mem_cons_self), ok_bind]
    refine ih hnodup fun range hr => ?_
    have hne : aggregateKey space range ≠ aggregateKey space node :=
      fun h => hnot (aggregateKey_injective space h ▸ hr)
    rw [OrdMap.get_insert_of_ne _ _ hne, hget range (mem_cons_of_mem _ hr)]

end Path

/-! ## Counting -/

/-- The aggregate of a node after one more entry. -/
def nextRecord (es : List Entry) (e : Entry) (range : Range) : PrefixMetaRecord :=
  metaObserved (metaRecord es range) (replay (es ++ [e])) range e

theorem metaOf_concat_eq_nextRecord (h : touches range e = true) :
    metaOf (es ++ [e]) range = some (nextRecord es e range) := by
  rw [metaOf_concat, if_pos h]
  rfl

/-- Observing the entry, counting and materializing at its position gives the next record. -/
theorem counted_currentRecord (h : Chronicle (es ++ [e])) (range : Range) {device : DeviceId}
    (hdev : e.device = device) (count : U64)
    (hcount : count = U64.ofNat (countUnder (replay (es ++ [e])) range)) :
    ({ (currentRecord es range).observeHistory device e.seq e.ver with
        liveCount := count } : PrefixMetaRecord).materializeCountAt e.order =
      nextRecord es e range := by
  have hepoch : max (materialized (metaRecord es range) (newestReset es range)).countEpoch e.order =
      e.order := max_eq_right (materialized_countEpoch_lt_last h range).le
  subst hdev
  simp only [PrefixMetaRecord.materializeCountAt, PrefixMetaRecord.observeHistory, nextRecord,
    metaObserved, hcount, hepoch, currentRecord, materialized_history, materialized_maxVer]

section Counts

variable {space : SpaceId} {store : Store} {es ss : List Entry} {e : Entry} {device : DeviceId}
  (hm : Materialized space store es) (hcs : Chronicle ((es ++ ss) ++ [e]))
  (hdev : e.device = device)

include hm hcs hdev

variable {key : Key} {staged : Aggregates} {delta : Int}

/-- One node of `apply_point_count`. -/
theorem applyPointCountAt_spec (hk : e.mutation.pointKey = some key) {range : Range}
    (hget : staged.get (aggregateKey space range) = overlay es ss range)
    (hcov : range.coversKey key = true) (hlive : countUnder (replay (es ++ ss)) range < 2 ^ 64)
    (hdelta : delta = (if e.mutation.isSet then 1 else 0) -
      (if ((replay (es ++ ss)).get key).isSome then 1 else 0)) :
    applyPointCountAt space store ss (Observation.of e device) delta staged
        (range, aggregateKey space range) =
      if countUnder (replay ((es ++ ss) ++ [e])) range < 2 ^ 64 then
        .ok (staged.insert (aggregateKey space range) (nextRecord (es ++ ss) e range))
      else .error (.panic
        "live count underflow: aggregates diverged from visible point state") := by
  have hc : Chronicle (es ++ ss) := hcs.of_append_left
  have hstep := countUnder_point (replay (es ++ ss)) hk range
  rw [if_pos hcov, ← hdelta, ← replay_concat] at hstep
  have hcount : (currentRecord (es ++ ss) range).liveCount.checkedAddSigned delta =
      U64.tryFrom (countUnder (replay ((es ++ ss) ++ [e])) range) := by
    rw [currentRecord, materialized_liveCount hc, U64.checkedAddSigned_ofNat hlive hstep]
  simp only [applyPointCountAt, materializeAggregate_spec hm hc.of_append_left hget, ok_bind,
    OrdMap.get_insert_self, expect_some]
  have hobserved : ((currentRecord (es ++ ss) range).observeHistory
      (Observation.of e device).device (Observation.of e device).seq
      (Observation.of e device).ver).liveCount.checkedAddSigned delta =
        U64.tryFrom (countUnder (replay ((es ++ ss) ++ [e])) range) := hcount
  rw [hobserved]
  split
  next hlt =>
    rw [U64.tryFrom_of_lt hlt, expect_some, ok_bind, OrdMap.insert_insert]
    exact congrArg (fun record => Except.ok (staged.insert (aggregateKey space range) record))
      (counted_currentRecord hcs range hdev _ rfl)
  next hge =>
    rw [U64.tryFrom_of_le (not_lt.mp hge)]
    rfl

/-- `apply_point_count` gives every node of the path its next aggregate. -/
theorem applyPointCount_spec (hk : e.mutation.pointKey = some key)
    (hget : ∀ range, staged.get (aggregateKey space range) = overlay es ss range)
    (hlive : countUnder (replay (es ++ ss)) .full < 2 ^ 64)
    (hdelta : delta = (if e.mutation.isSet then 1 else 0) -
      (if ((replay (es ++ ss)).get key).isSome then 1 else 0)) :
    applyPointCount space store staged ss (Observation.of e device) key delta =
      if countUnder (replay ((es ++ ss) ++ [e])) .full < 2 ^ 64 then
        .ok (insertNodes space (nextRecord (es ++ ss) e) staged (Range.prefixed key).covering)
      else .error (.panic
        "live count underflow: aggregates diverged from visible point state") := by
  have hnode : ∀ range staged, range.coversKey key = true →
      staged.get (aggregateKey space range) = overlay es ss range →
      applyPointCountAt space store ss (Observation.of e device) delta staged
          (range, aggregateKey space range) =
        if countUnder (replay ((es ++ ss) ++ [e])) range < 2 ^ 64 then
          .ok (staged.insert (aggregateKey space range) (nextRecord (es ++ ss) e range))
        else .error (.panic
          "live count underflow: aggregates diverged from visible point state") := by
    intro range staged hcov hget
    refine applyPointCountAt_spec hm hcs hdev hk hget hcov ?_ hdelta
    exact lt_of_le_of_lt (countUnder_mono _ (Range.full_coversRange range)) hlive
  unfold applyPointCount aggregatePath
  by_cases hlt : countUnder (replay ((es ++ ss) ++ [e])) .full < 2 ^ 64
  · rw [if_pos hlt]
    -- no node can overflow once the root does not
    have hloop : ∀ (nodes : List Range) (staged : Aggregates), nodes.Nodup →
        (∀ range ∈ nodes, range.coversKey key = true ∧
          staged.get (aggregateKey space range) = overlay es ss range) →
        (nodes.map fun node => (node, aggregateKey space node)).foldlM
            (applyPointCountAt space store ss (Observation.of e device) delta) staged =
          .ok (insertNodes space (nextRecord (es ++ ss) e) staged nodes) := by
      intro nodes
      induction nodes with
      | nil => intro staged _ _; rfl
      | cons node nodes ih =>
        intro staged hnodup hall
        obtain ⟨hnot, hnodup⟩ := nodup_cons.mp hnodup
        obtain ⟨hcov, hg⟩ := hall node mem_cons_self
        have hbound : countUnder (replay ((es ++ ss) ++ [e])) node < 2 ^ 64 :=
          lt_of_le_of_lt (countUnder_mono _ (Range.full_coversRange node)) hlt
        rw [map_cons, foldlM_cons, hnode node staged hcov hg, if_pos hbound, ok_bind]
        refine ih _ hnodup fun range hr => ?_
        obtain ⟨hcov', hg'⟩ := hall range (mem_cons_of_mem _ hr)
        refine ⟨hcov', ?_⟩
        have hne : aggregateKey space range ≠ aggregateKey space node :=
          fun h => hnot (aggregateKey_injective space h ▸ hr)
        rw [OrdMap.get_insert_of_ne _ _ hne, hg']
    refine hloop _ staged (Range.covering_nodup _) fun range hr => ⟨?_, hget range⟩
    rw [← Range.coversRange_prefixed]
    exact Range.mem_covering_iff.mp hr
  · rw [if_neg hlt]
    -- the root comes first on every path
    rw [Range.covering, map_cons, foldlM_cons,
      hnode .full staged rfl (hget .full), if_neg hlt]
    rfl

variable {target : Range}

omit hm in
/-- The second loop of `apply_range_count`: the target drops to zero, every other
node of the path loses what the target had. -/
theorem settleRangePath_spec (hmut : e.mutation = .deleteRange target) {nodes : List Range}
    (hnodup : nodes.Nodup) (hlast : nodes ≠ [] → nodes.getLast? = some target)
    (hcov : ∀ range ∈ nodes, range.coversRange target = true)
    (hget : ∀ range ∈ nodes, staged.get (aggregateKey space range) =
      some (currentRecord (es ++ ss) range))
    (hlive : countUnder (replay (es ++ ss)) .full < 2 ^ 64) :
    settleRangePath (Observation.of e device) (U64.ofNat (countUnder (replay (es ++ ss)) target))
        (nodes.map fun node => (node, aggregateKey space node)) staged =
      .ok (insertNodes space (nextRecord (es ++ ss) e) staged nodes) := by
  have hc : Chronicle (es ++ ss) := hcs.of_append_left
  induction nodes generalizing staged with
  | nil => rfl
  | cons node nodes ih =>
    obtain ⟨hnot, hnodup⟩ := nodup_cons.mp hnodup
    have hcn := hcov node mem_cons_self
    have hframe : ∀ record, ∀ range ∈ nodes,
        (staged.insert (aggregateKey space node) record).get (aggregateKey space range) =
          some (currentRecord (es ++ ss) range) := by
      intro record range hr
      have hne : aggregateKey space range ≠ aggregateKey space node :=
        fun h => hnot (aggregateKey_injective space h ▸ hr)
      rw [OrdMap.get_insert_of_ne _ _ hne, hget range (mem_cons_of_mem _ hr)]
    have hrest : ∀ record, settleRangePath (Observation.of e device)
        (U64.ofNat (countUnder (replay (es ++ ss)) target))
        (nodes.map fun node => (node, aggregateKey space node))
        (staged.insert (aggregateKey space node) record) =
          .ok (insertNodes space (nextRecord (es ++ ss) e)
            (staged.insert (aggregateKey space node) record) nodes) := by
      intro record
      refine ih hnodup (fun hne => ?_) (fun range hr => hcov range (mem_cons_of_mem _ hr))
        (hframe record)
      rw [← hlast (cons_ne_nil _ _)]
      cases nodes with
      | nil => exact absurd rfl hne
      | cons next nodes => rw [getLast?_cons_cons]
    rw [map_cons, settleRangePath, hget node mem_cons_self, expect_some, ok_bind]
    split
    next hnil =>
      -- the last node is the target, and its keys are gone
      have hnodes : nodes = [] := map_eq_nil_iff.mp hnil
      subst hnodes
      have htarget : node = target := Option.some.inj (hlast (cons_ne_nil _ _))
      have hzero : countUnder (replay ((es ++ ss) ++ [e])) node = 0 := by
        rw [replay_concat, htarget]
        exact countUnder_range_of_covered hmut (Range.coversRange_self target)
      have hnext : ({ (currentRecord (es ++ ss) node).observeHistory device e.seq e.ver with
          liveCount := 0, countEpoch := e.order } : PrefixMetaRecord) =
            nextRecord (es ++ ss) e node := by
        rw [← counted_currentRecord hcs node hdev 0 (by rw [hzero]; rfl)]
        have hepoch : max (materialized (metaRecord (es ++ ss) node)
            (newestReset (es ++ ss) node)).countEpoch e.order = e.order :=
          max_eq_right (materialized_countEpoch_lt_last hcs node).le
        simp only [PrefixMetaRecord.materializeCountAt, PrefixMetaRecord.observeHistory,
          currentRecord, hepoch]
      rw [insertNodes, foldl_cons, ← insertNodes, ← hnext]
      exact hrest _
    next =>
      have hsum := countUnder_range_of_covers (replay (es ++ ss)) hmut hcn
      rw [← replay_concat] at hsum
      have hbound : countUnder (replay (es ++ ss)) node < 2 ^ 64 :=
        lt_of_le_of_lt (countUnder_mono _ (Range.full_coversRange node)) hlive
      have hsub : U64.checkedSub ((currentRecord (es ++ ss) node).observeHistory
          (Observation.of e device).device (Observation.of e device).seq
          (Observation.of e device).ver).liveCount
            (U64.ofNat (countUnder (replay (es ++ ss)) target)) =
              some (U64.ofNat (countUnder (replay ((es ++ ss) ++ [e])) node)) := by
        have hlc : ((currentRecord (es ++ ss) node).observeHistory
            (Observation.of e device).device (Observation.of e device).seq
            (Observation.of e device).ver).liveCount =
              U64.ofNat (countUnder (replay (es ++ ss)) node) := materialized_liveCount hc node
        rw [hlc, U64.checkedSub_ofNat hbound (by omega)]
        congr 2
        omega
      simp only [hsub, expect_some, ok_bind]
      rw [insertNodes, foldl_cons, ← insertNodes, ← counted_currentRecord hcs node hdev _ rfl]
      exact hrest _

/-- `apply_range_count` gives every node of the path its next aggregate. -/
theorem applyRangeCount_spec (hmut : e.mutation = .deleteRange target)
    (hget : ∀ range, staged.get (aggregateKey space range) = overlay es ss range)
    (hlive : countUnder (replay (es ++ ss)) .full < 2 ^ 64) :
    ∃ staged', applyRangeCount space store staged ss (Observation.of e device) target =
        .ok staged' ∧
      (∀ range, staged'.get (aggregateKey space range) =
        if range ∈ target.covering then some (nextRecord (es ++ ss) e range)
        else staged.get (aggregateKey space range)) ∧
      ((∀ b r, staged.get b = some r → ∃ range, b = aggregateKey space range) →
        ∀ b r, staged'.get b = some r → ∃ range, b = aggregateKey space range) := by
  have hc : Chronicle (es ++ ss) := hcs.of_append_left
  have hmat := @foldlM_materializeAggregate space store es ss hm _ hc.of_append_left _
    (Range.covering_nodup target) fun range _ => hget range
  have hmem : ∀ range ∈ target.covering,
      (insertNodes space (currentRecord (es ++ ss)) staged target.covering).get
        (aggregateKey space range) = some (currentRecord (es ++ ss) range) := by
    intro range hr
    rw [get_insertNodes, if_pos hr]
  have hself : target ∈ target.covering :=
    Range.mem_covering_iff.mpr (Range.coversRange_self target)
  have hlc : (currentRecord (es ++ ss) target).liveCount =
      U64.ofNat (countUnder (replay (es ++ ss)) target) := materialized_liveCount hc target
  have hsettle := @settleRangePath_spec space es ss e device hcs hdev _ target hmut _
    (Range.covering_nodup target) (fun _ => Range.covering_getLast? target)
    (fun range hr => Range.mem_covering_iff.mp hr) hmem hlive
  refine ⟨insertNodes space (nextRecord (es ++ ss) e)
    (insertNodes space (currentRecord (es ++ ss)) staged target.covering) target.covering,
    ?_, fun range => ?_, fun hkeys b r h => ?_⟩
  · have hgetLast : (aggregatePath space target).getLast? =
        some (target, aggregateKey space target) := by
      rw [aggregatePath, getLast?_map, Range.covering_getLast?]
      rfl
    have hmat' : (aggregatePath space target).foldlM (materializeAggregate space store ss)
        staged = .ok (insertNodes space (currentRecord (es ++ ss)) staged target.covering) := hmat
    simp only [applyRangeCount, hmat', ok_bind, hgetLast, expect_some, hmem target hself, hlc]
    exact hsettle
  · rw [get_insertNodes, get_insertNodes]
    split <;> rfl
  · exact key_of_get_insertNodes (fun b r h => key_of_get_insertNodes hkeys h) h

end Counts

end Homebase.Refine
