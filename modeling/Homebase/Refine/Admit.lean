import Homebase.Refine.Leases

set_option autoImplicit false

/-!
# Refine: admission

The final write of `admit_impl` turns a store that denotes a space into one that
denotes the space with the request appended.  With the reservation check stated
over the lease table, admission as a whole agrees with `specAdmit`: same
response, same error, and the store of the new space.
-/

namespace Homebase.Refine

open Foundation Homebase.Core Server Ledger List

/-! ## The sections of the final write -/

section Sections

variable (space : SpaceId) {α : Type}

theorem foldl_put (f g : α → Bytes) (l : List α) (batch : WriteBatch) :
    (l.foldl (fun batch x => batch.put (f x) (g x)) batch).ops =
      batch.ops ++ l.map fun x => .put (f x) (g x) := by
  induction l generalizing batch with
  | nil => simp
  | cons x l ih =>
    rw [foldl_cons, ih]
    simp

/-- The log rows of admitted batches. -/
theorem lastWrite_batchOps (key : StorageKey) (batches : List AdmittedBatch) :
    Store.lastWrite (key.encode space) (batches.flatMap (batchOps space)) =
      match key with
      | .header seq => (latest (fun batch => decide (batch.admissionSeq = seq)) batches).map
          fun batch => some (headerOf batch).encode
      | .op seq opIndex target => (latest (fun e => decide (opRow e = .op seq opIndex target))
          (batches.flatMap AdmittedBatch.entries)).map fun e => some (opBytes e)
      | _ => none := by
  have hrows : ∀ es : List Entry, es.map (opPut space) =
      es.map fun e => .put ((opRow e).encode space) (opBytes e) := fun es =>
    map_congr_left fun e _ => by rw [encode_opRow]; rfl
  induction batches using List.reverseRecOn with
  | nil => cases key <;> rfl
  | append_singleton batches batch ih =>
    have hhead : Store.lastWrite (key.encode space)
        [.put (admissionHeaderKey space batch.admissionSeq) (headerOf batch).encode] =
          if key = .header batch.admissionSeq then some (some (headerOf batch).encode)
          else none := by
      rw [← encode_header, Store.lastWrite_singleton_put]
      simp only [StorageKey.encode_inj]
    rw [flatMap_append, Store.lastWrite_append, ih, flatMap_singleton, batchOps,
      Store.lastWrite_append, hhead, hrows, lastWrite_rows]
    cases key with
    | header seq =>
      have hnone : latest (fun e => decide (opRow e = StorageKey.header seq)) batch.entries =
          none := latest_eq_none_iff.mpr fun e _ => by simp [opRow]
      simp only [hnone, latest_append, latest_singleton, StorageKey.header.injEq]
      by_cases h : batch.admissionSeq = seq
      · simp [h]
      · simp [h, Ne.symm h]
    | op seq opIndex target =>
      simp only [flatMap_append, flatMap_singleton, latest_append, Option.map_or]
      simp
    | _ => simp [latest_eq_none_iff, opRow]

variable {κ : Type} {f : κ → StorageKey}

/-- A section that writes out a map under the keys `f` of one kind. -/
theorem lastWrite_section [LinearOrder κ] (m : OrdMap κ α) (hf : Function.Injective f)
    (g : α → Bytes) (k : κ) :
    Store.lastWrite ((f k).encode space)
        (m.entries.map fun p => .put ((f p.1).encode space) (g p.2)) =
      (m.get k).map fun v => some (g v) :=
  Store.lastWrite_puts m ((StorageKey.encode_injective space).comp hf) g k

theorem lastWrite_section_none [LinearOrder κ] (m : OrdMap κ α) (g : α → Bytes) {key : StorageKey}
    (hkey : ∀ k, f k ≠ key) :
    Store.lastWrite (key.encode space)
      (m.entries.map fun p => .put ((f p.1).encode space) (g p.2)) = none := by
  refine Store.lastWrite_eq_none fun op hop => ?_
  obtain ⟨p, -, rfl⟩ := mem_map.mp hop
  exact fun h => hkey p.1 (StorageKey.encode_injective space h)

theorem lastWrite_data (m : OrdMap Key DataRecord) (key : StorageKey) :
    Store.lastWrite (key.encode space)
        (m.entries.map fun p => .put ((StorageKey.data p.1).encode space) p.2.encode) =
      match key with
      | .data k => (m.get k).map fun record => some record.encode
      | _ => none := by
  cases key with
  | data k => exact lastWrite_section space m (fun _ _ => StorageKey.data.inj) _ k
  | _ => exact lastWrite_section_none space m _ fun k => StorageKey.noConfusion

theorem lastWrite_ranges (m : OrdMap Range RangeDeleteRecord) (key : StorageKey) :
    Store.lastWrite (key.encode space)
        (m.entries.map fun p => .put ((StorageKey.rangeDelete p.1).encode space) p.2.encode) =
      match key with
      | .rangeDelete range => (m.get range).map fun record => some record.encode
      | _ => none := by
  cases key with
  | rangeDelete range =>
    exact lastWrite_section space m (fun _ _ => StorageKey.rangeDelete.inj) _ range
  | _ => exact lastWrite_section_none space m _ fun k => StorageKey.noConfusion

/-- The section of the staged aggregates, whose map is keyed by bytes. -/
theorem lastWrite_aggregates {m : Aggregates}
    (hkeys : ∀ b record, m.get b = some record → ∃ range, b = aggregateKey space range)
    (key : StorageKey) :
    Store.lastWrite (key.encode space) (m.entries.map fun p => .put p.1 p.2.encode) =
      match key with
      | .aggregate range => (m.get (aggregateKey space range)).map fun record =>
          some record.encode
      | _ => none := by
  have hall := Store.lastWrite_puts m Function.injective_id PrefixMetaRecord.encode
    (key.encode space)
  simp only [id] at hall
  rw [hall]
  have hnone : (∀ range, key ≠ .aggregate range) → m.get (key.encode space) = none := by
    intro hne
    cases hg : m.get (key.encode space) with
    | none => rfl
    | some record =>
      obtain ⟨range, hrange⟩ := hkeys _ record hg
      rw [← aggregate_encode] at hrange
      exact absurd (StorageKey.encode_injective space hrange) (hne range)
  cases key with
  | aggregate range => rw [aggregate_encode]
  | _ => simp [hnone]

theorem lastWrite_row (key row : StorageKey) (value : Bytes) :
    Store.lastWrite (key.encode space) [.put (row.encode space) value] =
      if key = row then some (some value) else none := by
  rw [Store.lastWrite_singleton_put]
  simp only [StorageKey.encode_inj]

end Sections

/-! ## What a staged record leaves in the store -/

theorem getD_map_some {α : Type} (g : α → Bytes) (o o' : Option α) :
    (o.map fun x => some (g x)).getD (o'.map g) = (o.or o').map g := by
  cases o <;> rfl

section Overlay

variable {space : SpaceId} {es ss : List Entry} {st : Staging} (hst : Staged space es ss st)

include hst

theorem staged_data_image (key : Key) :
    ((st.staged.get key).map fun record => some record.encode).getD
        ((lastPoint es key).map pointBytes) = (lastPoint (es ++ ss) key).map pointBytes := by
  rw [hst.data, lastPoint_append, dataOf]
  cases h : lastPoint ss key with
  | none => rfl
  | some e =>
    have hpoint := isDeleteRange_of_pointKey (mem_of_lastPoint h).2
    simp [toData?, pointBytes, hpoint]

theorem staged_range_image (hc : Chronicle (es ++ ss)) (range : Range) :
    ((st.stagedRanges.get range).map fun record => some record.encode).getD
        ((rangeOf es range).map RangeDeleteRecord.encode) =
      (rangeOf (es ++ ss) range).map RangeDeleteRecord.encode := by
  rw [hst.ranges, getD_map_some]
  split
  next hany =>
    obtain ⟨d, hd, ht⟩ := any_eq_true.mp hany
    cases hr : rangeOf (es ++ ss) range with
    | none =>
      rw [targets_of_rangeOf_none hc hr (mem_append_right es hd)] at ht
      cases ht
    | some record => rfl
  next hany =>
    rw [rangeOf_append_of_not_targets fun d hd => by
      by_contra ht
      exact hany (any_eq_true.mpr ⟨d, hd, by simpa using ht⟩)]
    rfl

theorem staged_aggregate_image (range : Range) :
    ((st.stagedAggregates.get (aggregateKey space range)).map fun record =>
        some record.encode).getD ((metaOf es range).map PrefixMetaRecord.encode) =
      (metaOf (es ++ ss) range).map PrefixMetaRecord.encode := by
  rw [hst.aggregates, getD_map_some, overlay]
  split
  next hany =>
    obtain ⟨d, hd, ht⟩ := any_eq_true.mp hany
    obtain ⟨record, hrecord⟩ := Option.isSome_iff_exists.mp
      (metaOf_isSome_of_touches (mem_append_right es hd) ht)
    rw [hrecord]
    rfl
  next hany =>
    rw [metaOf_append_of_not_touches fun d hd => by
      by_contra ht
      exact hany (any_eq_true.mpr ⟨d, hd, by simpa using ht⟩)]
    rfl

end Overlay

/-! ## The final write -/

/-- Writes under storage keys keep a store free of other keys. -/
theorem Known.apply {space : SpaceId} {store : Store} (h : Known space store)
    {batch : WriteBatch} (hops : ∀ op ∈ batch.ops, ∃ key : StorageKey,
      key.encode space = Store.opOn op) : Known space (store.apply batch) := by
  intro b v hget
  by_cases hb : ∃ op ∈ batch.ops, Store.opOn op = b
  · obtain ⟨op, hop, rfl⟩ := hb
    exact hops op hop
  · rw [Store.get_apply, Store.lastWrite_eq_none fun op hop heq => hb ⟨op, hop, heq⟩] at hget
    exact h b v hget

section Commit

variable {sha256 : Bytes → ByteArr 32} {space : SpaceId} {store : Store} {L : Space}
  {device : DeviceId} {added : List Admission} {st : Staging}

theorem commit_ops (st : Staging) (last : DeviceSeq) (record : CountersRecord) :
    (st.commit space device last record).ops = st.batch.ops ++
      st.staged.entries.map (fun p => .put ((StorageKey.data p.1).encode space) p.2.encode) ++
      st.stagedRanges.entries.map
        (fun p => .put ((StorageKey.rangeDelete p.1).encode space) p.2.encode) ++
      st.stagedAggregates.entries.map (fun p => .put p.1 p.2.encode) ++
      [.put ((StorageKey.device device).encode space) (DeviceRecord.mk last st.nextChecksum).encode]
      ++ [.put (StorageKey.counters.encode space) record.encode] := by
  simp only [Staging.commit, WriteBatch.ops_put, foldl_put, encode_data, encode_rangeDelete,
    encode_device, encode_counters]

/-- The final write appends the request to the space. -/
theorem commit_denotes (hD : Denotes sha256 space store L)
    (hf : InFlight sha256 space device L.log added st) (last : DeviceSeq)
    (record : CountersRecord) :
    Denotes sha256 space (store.apply (st.commit space device last record))
      { L with
        log := L.log ++ added
        devices := Function.update L.devices device
          (some ⟨last, chain sha256 space device (L.log ++ added)⟩)
        counters := some record } := by
  refine ⟨fun key => ?_, ?_⟩
  · rw [Store.get_apply, commit_ops, Store.lastWrite_append, Store.lastWrite_append,
      Store.lastWrite_append, Store.lastWrite_append, Store.lastWrite_append, lastWrite_row,
      lastWrite_row, lastWrite_aggregates space hf.staged.aggregateKeys, lastWrite_ranges,
      lastWrite_data, hf.ops, lastWrite_batchOps, hD.get, hf.nextChecksum]
    have hc := hf.logged.chronicle
    rw [events_append] at hc
    cases key with
    | data key => simpa [image, events_append] using staged_data_image hf.staged key
    | rangeDelete range => simpa [image, events_append] using staged_range_image hf.staged hc range
    | aggregate range => simpa [image, events_append] using staged_aggregate_image hf.staged range
    | leaseByPrefix p id => simp [image]
    | leaseById id => simp [image]
    | counters => simp [image]
    | device d =>
      by_cases hd : d = device
      · simp [image, hd]
      · simp [image, hd]
    | header seq => simp [image, getD_map_some, admittedBatches_append, latest_append]
    | op seq opIndex target =>
      simp [image, getD_map_some, flatMap_entries_admittedFrom, events_append, latest_append]
  · refine hD.known.apply fun op hop => ?_
    rw [commit_ops] at hop
    simp only [mem_append, mem_map, mem_singleton] at hop
    rcases hop with ((((hop | ⟨p, -, rfl⟩) | ⟨p, -, rfl⟩) | ⟨p, hp, rfl⟩) | rfl) | rfl
    · rw [hf.ops, mem_flatMap] at hop
      obtain ⟨batch, -, hop⟩ := hop
      rw [batchOps, mem_append, mem_map, mem_singleton] at hop
      rcases hop with ⟨e, -, rfl⟩ | rfl
      · exact ⟨opRow e, encode_opRow space e⟩
      · exact ⟨.header batch.admissionSeq, rfl⟩
    · exact ⟨_, rfl⟩
    · exact ⟨_, rfl⟩
    · obtain ⟨range, hrange⟩ := hf.staged.aggregateKeys p.1 p.2 (OrdMap.mem_entries_iff.mp hp)
      exact ⟨.aggregate range, by rw [aggregate_encode, ← hrange]; rfl⟩
    · exact ⟨_, rfl⟩
    · exact ⟨_, rfl⟩

end Commit

/-! ## Admission as a whole -/

section Admit

variable {sha256 : Bytes → ByteArr 32} {space : SpaceId} {store : Store} {L : Space}
  (hD : Denotes sha256 space store L) (hV : L.Valid sha256 space)

include hV in
/-- What `admit_impl` starts its batch loop with. -/
theorem InFlight.start (device : DeviceId) :
    InFlight sha256 space device L.log []
      (Staging.start (chain sha256 space device L.log) (logSeq L.log)) where
  staged := Staged.start space (events L.log) _ _
  nextChecksum := by rw [append_nil]; rfl
  nextAdmissionSeq := by rw [append_nil]; rfl
  results := rfl
  ops := rfl
  logged := by rw [append_nil]; exact hV.logged
  own := by simp

include hD hV

/-- Admission agrees with its statement over the space. -/
theorem admitImpl_spec (now : Timestamp) (req : AdmissionRequest) :
    Agree (fun r r' => r.1 = r'.1 ∧ Denotes sha256 space r'.2 r.2)
      (specAdmit sha256 space L now req) (admitImpl sha256 space store now req) := by
  unfold specAdmit admitImpl
  have hseq : (L.devices req.device).elim 0 DeviceRecord.lastSeq = L.lastSeq req.device := rfl
  have hsum : (L.devices req.device).elim DeviceChecksum.empty DeviceRecord.checksum =
      L.checksum req.device := rfl
  rw [device_spec hD]
  simp only [orExit_ok, ok_bind, hseq, hsum]
  split
  next => exact Agree.error _
  next =>
    refine Agree.bind (Agree.refl _) fun last _ hlast heq => ?_
    subst heq
    rw [validateWrites_spec hD hV.keyed]
    refine Agree.bind (Agree.refl _) fun _ _ _ _ => ?_
    have hnext : addOne L.record.admissionHighWater = .ok (logSeq L.log) := by
      rw [hV.highWater, addOne_ofNat_of_lt hV.logged.short]
      rfl
    rw [counters_spec hD]
    simp only [orExit_ok, ok_bind, hnext]
    have hstart := InFlight.start hV req.device
    rw [← hV.checksum] at hstart
    have hloop := admitBatches_spec (L.checksum req.device) hD.materialized hstart req.batches
    rw [append_nil] at hloop
    refine Agree.bind hloop fun added st hadded hf => ?_
    rw [nil_append] at hf
    have hsub : U64.checkedSub st.nextAdmissionSeq 1 =
        some (U64.ofNat (L.log.length + added.length)) := by
      rw [hf.nextAdmissionSeq, logSeq, length_append]
      have hshort := hf.logged.short
      rw [length_append] at hshort
      exact U64.checkedSub_ofNat hshort (Nat.le_add_left 1 _)
    rw [hsub, expect_some]
    simp only [orExit_ok, ok_bind]
    refine Agree.ok ⟨?_, commit_denotes hD hf last _⟩
    rw [appliedResponse, hf.nextChecksum, hf.results]

end Admit

end Homebase.Refine
