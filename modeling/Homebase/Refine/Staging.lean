import Homebase.Refine.Aggregates

set_option autoImplicit false

/-!
# Refine: one request in flight

Admission checks later entries of a request against what it has staged: point
records, tombstones, aggregates and the list of events.  `Staged` says that these
four denote the chronicle `es ++ ss`, where `es` is what the store holds and `ss`
what the request has admitted so far.  Under it, the body of the entry loop
agrees with the checks stated over the chronicle, errors included, and an
accepted entry extends what is staged.
-/

namespace Homebase.Refine

open Foundation Homebase.Core Server Ledger List

/-! ## Rows of the log -/

/-- The target of an operation, as the key of its log row carries it. -/
def opTarget (e : Entry) : AdmissionTarget :=
  match e.mutation with
  | .set key _ => .point key
  | .delete key => .point key
  | .deleteRange range => .range range

/-- The key of the log row of an entry. -/
def opKey (space : SpaceId) (e : Entry) : Bytes :=
  targetKey space e.seq e.admission.opIndex (opTarget e)

/-- The bytes of the log row of an entry. -/
def opBytes (e : Entry) : Bytes :=
  if h : e.mutation.isDeleteRange = true then (RangeDeleteRecord.new e h).encode
  else pointBytes e

/-- The write of the log row of an entry. -/
def opPut (space : SpaceId) (e : Entry) : Op := .put (opKey space e) (opBytes e)

variable {space : SpaceId} {e : Entry} {key : Key}

theorem opPut_point (hk : e.mutation.pointKey = some key)
    (hpoint : e.mutation.isDeleteRange = false) :
    opPut space e = .put (admissionOpKey space e.seq e.admission.opIndex key)
      (DataRecord.mk e hpoint).encode := by
  have htarget : opTarget e = .point key := by
    unfold opTarget
    cases hm : e.mutation with
    | set k value => rw [hm] at hk; cases hk; rfl
    | delete k => rw [hm] at hk; cases hk; rfl
    | deleteRange range => rw [hm] at hk; cases hk
  rw [opPut, opKey, htarget, opBytes, dif_neg (by simp [hpoint]), pointBytes, dif_pos hpoint]
  rfl

variable {range : Range}

theorem opPut_range (hmut : e.mutation = .deleteRange range)
    (hrange : e.mutation.isDeleteRange = true) :
    opPut space e = .put (admissionRangeOpKey space e.seq e.admission.opIndex range)
      (RangeDeleteRecord.new e hrange).encode := by
  have htarget : opTarget e = .range range := by rw [opTarget, hmut]
  rw [opPut, opKey, htarget, opBytes, dif_pos hrange]
  rfl

/-! ## The staged overlay -/

/-- What a request has staged denotes the chronicle `es ++ ss`. -/
structure Staged (space : SpaceId) (es ss : List Entry) (st : Staging) : Prop where
  events : st.stagedEvents = ss
  data : ∀ key, st.staged.get key = dataOf ss key
  ranges : ∀ range, st.stagedRanges.get range =
    if ss.any (targets [range]) then rangeOf (es ++ ss) range else none
  aggregates : ∀ range, st.stagedAggregates.get (aggregateKey space range) = overlay es ss range
  aggregateKeys : ∀ b record, st.stagedAggregates.get b = some record →
    ∃ range, b = aggregateKey space range

/-- Nothing is staged at the start. -/
theorem Staged.start (space : SpaceId) (es : List Entry) (checksum : DeviceChecksum)
    (seq : AdmissionSeq) : Staged space es [] (Staging.start checksum seq) where
  events := rfl
  data _ := rfl
  ranges _ := rfl
  aggregates _ := rfl
  aggregateKeys _ _ h := by cases h

variable {es ss : List Entry} {st : Staging}

/-- The other variables of the loops play no part. -/
theorem Staged.update (h : Staged space es ss st) (checksum : DeviceChecksum) (seq : AdmissionSeq)
    (results : List AdmissionResult) :
    Staged space es ss
      { st with nextChecksum := checksum, nextAdmissionSeq := seq, results := results } :=
  ⟨h.events, h.data, h.ranges, h.aggregates, h.aggregateKeys⟩

/-- What the entry loop leaves alone, and the log rows it adds. -/
structure Extends (space : SpaceId) (added : List Entry) (st st' : Staging) : Prop where
  nextChecksum : st'.nextChecksum = st.nextChecksum
  nextAdmissionSeq : st'.nextAdmissionSeq = st.nextAdmissionSeq
  results : st'.results = st.results
  ops : st'.batch.ops = st.batch.ops ++ added.map (opPut space)

theorem Extends.refl (space : SpaceId) (st : Staging) : Extends space [] st st :=
  ⟨rfl, rfl, rfl, by simp⟩

theorem Extends.trans {as bs : List Entry} {st₁ st₂ st₃ : Staging} (h₁ : Extends space as st₁ st₂)
    (h₂ : Extends space bs st₂ st₃) :
    Extends space (as ++ bs) st₁ st₃ where
  nextChecksum := h₂.nextChecksum.trans h₁.nextChecksum
  nextAdmissionSeq := h₂.nextAdmissionSeq.trans h₁.nextAdmissionSeq
  results := h₂.results.trans h₁.results
  ops := by rw [h₂.ops, h₁.ops, map_append, append_assoc]

theorem dataOf_append (es ss : List Entry) (key : Key) :
    dataOf (es ++ ss) key = (dataOf ss key).or (dataOf es key) := by
  unfold dataOf
  rw [lastPoint_append]
  cases h : lastPoint ss key with
  | none => rfl
  | some e => simp [toData?, isDeleteRange_of_pointKey (mem_of_lastPoint h).2]

theorem dataOf_concat_point (hk : e.mutation.pointKey = some key)
    (hpoint : e.mutation.isDeleteRange = false) (other : Key) : dataOf (ss ++ [e]) other =
      if other = key then some ⟨e, hpoint⟩ else dataOf ss other := by
  rw [dataOf, lastPoint_concat, pointOn, hk]
  by_cases h : other = key
  · simp [h, toData?, hpoint]
  · simp [h, Ne.symm h, dataOf]

theorem dataOf_concat_range (hmut : e.mutation = .deleteRange range) (key : Key) :
    dataOf (ss ++ [e]) key = dataOf ss key := by
  have hnone : pointOn key e = false := by
    rw [pointOn, hmut]
    rfl
  rw [dataOf, lastPoint_concat, hnone]
  rfl

/-- The staged aggregates after every node above an entry received its next record. -/
theorem overlay_concat (es ss : List Entry) (e : Entry) (range : Range) :
    overlay es (ss ++ [e]) range =
      if touches range e then some (nextRecord (es ++ ss) e range) else overlay es ss range := by
  unfold overlay
  rw [any_append, any_cons, any_nil, Bool.or_false, ← append_assoc]
  by_cases ht : touches range e = true
  · rw [ht, Bool.or_true, if_pos rfl, metaOf_concat_eq_nextRecord ht]
    rfl
  · rw [Bool.not_eq_true] at ht
    rw [ht, Bool.or_false, metaOf_concat, ht]
    rfl

/-! ## The checks read the overlay -/

theorem touches_of_range {target : Range} (hmut : e.mutation = .deleteRange target)
    (range : Range) : touches range e = range.coversRange target := by
  rw [touches, hmut]

section Overlay

variable {space : SpaceId} {store : Store} {es ss : List Entry} {st : Staging}
  (hst : Staged space es ss st)

include hst

/-- The record an entry is checked against is the last one, staged or stored. -/
theorem staged_or_stored (hc : Chronicle es) (hm : Materialized space store es) (key : Key) :
    ∃ stored, storedPoint space store key st = .ok stored ∧
      (st.staged.get key).or stored = dataOf (es ++ ss) key := by
  rw [storedPoint, OrdMap.contains, hst.data, dataOf_append]
  cases h : dataOf ss key with
  | none => exact ⟨dataOf es key, data_spec hm hc key, rfl⟩
  | some record => exact ⟨none, rfl, rfl⟩

omit hst in
/-- The version floor of a range, from its effective history. -/
theorem effective_floor (hc : Chronicle es) (range : Range) :
    (if (effective es range).history.maxAdmissionSeq ≠ 0 then some (effective es range).maxVer
      else none) = rangeFloor es range := by
  rw [effective_maxAdmissionSeq hc, effective_maxVer hc, rangeFloor]
  split
  next hne =>
    rw [ne_eq, top_eq_zero_iff hc.seq_ne_zero] at hne
    obtain ⟨e, he⟩ := not_forall.mp hne
    obtain ⟨hmem, hrel⟩ := Classical.not_imp.mp he
    exact (topVer?_of_mem hmem (by simpa using hrel)).symm
  next heq =>
    rw [not_not, top_eq_zero_iff hc.seq_ne_zero] at heq
    exact (topVer?_of_none heq).symm

/-- The floor `admit_impl` computes for a point operation. -/
theorem staged_pointFloor {stored : Option DataRecord} {key : Key}
    (hstored : (st.staged.get key).or stored = dataOf (es ++ ss) key) :
    maxVer (maxVer (((st.staged.get key).map fun record => record.entry.ver).or
        (stored.map fun record => record.entry.ver)) (topVer? (rangeCoversKey key) es))
      (stagedMaxVer st.stagedEvents (rangeCoversKey key)) = pointFloor (es ++ ss) key := by
  have hver : ((st.staged.get key).map fun record => record.entry.ver).or
      (stored.map fun record => record.entry.ver) =
        (lastPoint (es ++ ss) key).map AdmittedEntry.ver := by
    rw [← Option.map_or, hstored, ← map_entry_dataOf, Option.map_map]
    rfl
  rw [hver, hst.events, stagedMaxVer_eq, maxVer_eq_max, maxVer_eq_max, option_max_assoc,
    ← topVer?_append]
  rfl

/-- The floor `admit_impl` computes for a range deletion. -/
theorem staged_rangeFloor (hc : Chronicle es) (range : Range) :
    maxVer (if (effective es range).history.maxAdmissionSeq ≠ 0 then
        some (effective es range).maxVer else none)
      (stagedMaxVer st.stagedEvents fun event => mutationRelevant range event.mutation) =
        rangeFloor (es ++ ss) range := by
  rw [effective_floor hc, hst.events, stagedMaxVer_eq, maxVer_eq_max, rangeFloor, rangeFloor,
    topVer?_append]
  rfl

end Overlay

/-! ## One entry -/

section Entry

variable {space : SpaceId} {store : Store} {es ss : List Entry} {st : Staging} {e : Entry}
  {device : DeviceId} (hm : Materialized space store es) (hst : Staged space es ss st)
  (hcs : Chronicle ((es ++ ss) ++ [e])) (hdev : e.device = device)
  (hlive : countUnder (replay (es ++ ss)) .full < 2 ^ 64)

include hm hst hcs hdev hlive

/-- The branch for Set and Delete agrees with the checks of a point operation. -/
theorem admitPoint_spec {key : Key} (hk : e.mutation.pointKey = some key)
    (hpoint : e.mutation.isDeleteRange = false) :
    Agree (fun (_ : Unit) st' => Staged space es (ss ++ [e]) st' ∧ Extends space [e] st st')
      (checkAgainst (es ++ ss) e)
      (admitPoint space store device key e hpoint st) := by
  have hc : Chronicle es := hcs.of_append_left.of_append_left
  obtain ⟨stored, hstored, hrecord⟩ := staged_or_stored hst hc hm key
  have hvisible := pointRecordVisibleWithEvents_spec hm hcs.of_append_left key
  rw [← hrecord, ← hst.events] at hvisible
  have hcount := applyPointCount_spec hm hcs hdev hk hst.aggregates hlive rfl
  simp only [checkAgainst, admitPoint, hstored, ok_bind, hvisible, coveringRangeMaxVer_spec hm hc,
    staged_pointFloor hst hrecord, checkVersion_point hk]
  cases hfloor : (pointFloor (es ++ ss) key).filter fun current => decide (e.ver ≤ current) with
  | some current => exact Agree.error _
  | none =>
    simp only [ok_bind, checkCount, hst.events, hcount]
    split
    next hlt =>
      refine Agree.ok ⟨⟨?_, fun other => ?_, fun range => ?_, fun range => ?_, ?_⟩, ?_⟩
      · rfl
      · rw [OrdMap.get_insert, hst.data, dataOf_concat_point hk hpoint]
        split <;> rfl
      · have hnot : targets [range] e = false := by
          rw [← Bool.not_eq_true, targets_singleton_iff]
          intro hmut
          rw [hmut] at hk
          cases hk
        have hmut : e.mutation ≠ .deleteRange range := fun h => by
          rw [targets_singleton_iff.mpr h] at hnot
          cases hnot
        rw [hst.ranges, any_append, any_cons, any_nil, hnot, Bool.or_false,
          Bool.or_false, ← append_assoc, rangeOf_concat_of_ne hmut]
      · rw [get_insertNodes, overlay_concat, touches_of_pointKey hk, hst.aggregates]
        simp only [Range.mem_covering_iff, Range.coversRange_prefixed]
      · exact fun b record h => key_of_get_insertNodes hst.aggregateKeys h
      · exact ⟨rfl, rfl, rfl, by rw [map_singleton, opPut_point hk hpoint]; rfl⟩
    next => exact Agree.error _

variable {range : Range}

omit hdev hlive in
/-- The tombstone of the range after the deletion. -/
theorem nextTombstone_spec (hmut : e.mutation = .deleteRange range)
    (hrange : e.mutation.isDeleteRange = true) :
    ∃ record, nextTombstone space store range e hrange st = .ok record ∧
      rangeOf ((es ++ ss) ++ [e]) range = some record := by
  have hc : Chronicle (es ++ ss) := hcs.of_append_left
  have hobserve : ∀ record, rangeOf (es ++ ss) range = some record →
      record.observe e = .ok (record.absorb e hrange) := by
    intro record hr
    have htarget := (rangeSummary_of_eq_some hc hr).target
    rw [RangeDeleteRecord.observe, dif_pos (by rw [htarget, hmut])]
  rw [rangeOf_concat, rangeStep, dif_pos hmut]
  unfold nextTombstone
  rw [hst.ranges]
  by_cases hany : ss.any (targets [range]) = true
  · rw [if_pos hany]
    obtain ⟨d, hd, ht⟩ := List.any_eq_true.mp hany
    cases hr : rangeOf (es ++ ss) range with
    | none =>
      rw [targets_of_rangeOf_none hc hr (mem_append_right es hd)] at ht
      cases ht
    | some record => exact ⟨_, hobserve record hr, rfl⟩
  · rw [if_neg hany]
    have hsame : rangeOf (es ++ ss) range = rangeOf es range :=
      rangeOf_append_of_not_targets fun d hd => by
        by_contra ht
        exact hany (List.any_eq_true.mpr ⟨d, hd, by simpa using ht⟩)
    simp only [rangeDelete_spec hm hc.of_append_left, ok_bind]
    rw [← hsame]
    cases hr : rangeOf (es ++ ss) range with
    | none => exact ⟨_, if_neg (not_not.mpr rfl), rfl⟩
    | some record =>
      have hne : record.entry.order ≠ e.order :=
        (hcs.order_lt_last (rangeSummary_of_eq_some hc hr).mem).ne
      exact ⟨_, (if_pos hne).trans (hobserve record hr), rfl⟩

/-- The branch for DeleteRange agrees with the checks of a range deletion. -/
theorem admitRange_spec (hmut : e.mutation = .deleteRange range)
    (hrange : e.mutation.isDeleteRange = true) :
    Agree (fun (_ : Unit) st' => Staged space es (ss ++ [e]) st' ∧ Extends space [e] st st')
      (checkAgainst (es ++ ss) e)
      (admitRange space store device range e hrange st) := by
  have hc : Chronicle es := hcs.of_append_left.of_append_left
  obtain ⟨record, hrecord, hnext⟩ := nextTombstone_spec hm hst hcs hmut hrange
  obtain ⟨aggregates, happly, hget, hkeys⟩ :=
    applyRangeCount_spec hm hcs hdev hmut hst.aggregates hlive
  simp only [checkAgainst, admitRange, effectiveHistory_spec hm hc, ok_bind, staged_rangeFloor hst hc,
    checkVersion_range hmut]
  cases hfloor : (rangeFloor (es ++ ss) range).filter fun current => decide (e.ver ≤ current) with
  | some current => exact Agree.error _
  | none =>
    -- a range deletion shows no new key
    have hcount : checkCount (es ++ ss) e = .ok () := by
      rw [checkCount_eq_ok_iff, replay_concat]
      have hsum := countUnder_range_of_covers (replay (es ++ ss)) hmut
        (Range.full_coversRange range)
      omega
    simp only [ok_bind, hst.events, happly, hcount, hrecord]
    refine Agree.ok ⟨⟨rfl, fun key => ?_, fun other => ?_, fun other => ?_, ?_⟩, ?_⟩
    · rw [hst.data, dataOf_concat_range hmut]
    · rw [OrdMap.get_insert, hst.ranges, ← append_assoc, any_append]
      by_cases heq : other = range
      · simp [-append_assoc, heq, hnext, targets_singleton_iff.mpr hmut]
      · have hne : e.mutation ≠ .deleteRange other := fun h => by
          rw [hmut] at h
          exact heq (Mutation.deleteRange.inj h).symm
        have hnot : targets [other] e = false := by
          rw [← Bool.not_eq_true, targets_singleton_iff]
          exact hne
        simp [-append_assoc, heq, hnot, rangeOf_concat_of_ne hne]
    · rw [hget, overlay_concat, touches_of_range hmut, hst.aggregates]
      simp only [Range.mem_covering_iff]
    · exact hkeys hst.aggregateKeys
    · exact ⟨rfl, rfl, rfl, by rw [map_singleton, opPut_range hmut hrange]; rfl⟩

/-- Both branches agree with the checks against the entries before. -/
theorem admitMutation_spec :
    Agree (fun (_ : Unit) st' => Staged space es (ss ++ [e]) st' ∧ Extends space [e] st st')
      (checkAgainst (es ++ ss) e) (admitMutation space store device e st) := by
  unfold admitMutation
  split
  next key value hmut => exact admitPoint_spec hm hst hcs hdev hlive (by rw [hmut]; rfl) _
  next key hmut => exact admitPoint_spec hm hst hcs hdev hlive (by rw [hmut]; rfl) _
  next range hmut => exact admitRange_spec hm hst hcs hdev hlive hmut _

end Entry

variable {store : Store} {device : DeviceId} {deviceSeq : DeviceSeq} {seq : AdmissionSeq}
  {index : Nat}

/-- The body of the entry loop agrees with the checks of one entry. -/
theorem admitEntry_spec {space : SpaceId} {entry : SealedEntry} (hm : Materialized space store es)
    (hst : Staged space es ss st) (hr : Ready (es ++ ss) seq index device) :
    Agree (fun e st' => Staged space es (ss ++ [e]) st' ∧ Extends space [e] st st')
      (specEntry (es ++ ss) device deviceSeq seq index entry)
      (admitEntry space store device deviceSeq seq index entry st) := by
  unfold specEntry admitEntry
  by_cases hidx : index < 2 ^ 32
  · rw [opIndexOf_of_lt hidx, ok_bind, ok_bind]
    split
    next => exact Agree.error _
    next htag =>
      have hdev := not_not.mp (not_or.mp htag).1
      cases hpayload : entry.sealing.validatePayload with
      | error reason => exact Agree.error _
      | ok =>
        have hcs : Chronicle ((es ++ ss) ++ [⟨entry, ⟨seq, U32.ofNat index⟩⟩]) :=
          hr.chronicle_concat rfl (U32.val_ofNat hidx) hdev
            ((Seal.validatePayload_eq_ok_iff _).mp hpayload)
        exact Agree.bind_ok_left (admitMutation_spec hm hst hcs hdev hr.live)
  · rw [opIndexOf_of_le (not_lt.mp hidx)]
    exact Agree.error _

/-- The entry loop agrees with the checks of the entries of a batch. -/
theorem admitEntries_spec {space : SpaceId} {entries : List SealedEntry}
    (hm : Materialized space store es) (hst : Staged space es ss st)
    (hr : Ready (es ++ ss) seq index device) :
    Agree (fun added st' => Staged space es (ss ++ added) st' ∧ Extends space added st st')
      (specEntries device deviceSeq seq (es ++ ss) index entries)
      (admitEntries space store device deviceSeq seq index entries st) := by
  induction entries generalizing ss st index with
  | nil => exact Agree.ok ⟨by rwa [append_nil], Extends.refl space st⟩
  | cons entry entries ih =>
    rw [specEntries, admitEntries]
    refine Agree.bind (admitEntry_spec hm hst hr) fun e st' he ⟨hst', hext⟩ => ?_
    have hr' := (specEntry_eq_ok_iff.mp he).ready hr
    rw [append_assoc] at hr' ⊢
    refine Agree.bind_ok_left ((ih hst' hr').mono fun added st'' ⟨hst'', hext'⟩ => ⟨?_, ?_⟩)
    · rwa [append_assoc] at hst''
    · exact hext.trans hext'

end Homebase.Refine
