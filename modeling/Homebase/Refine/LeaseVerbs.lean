import Homebase.Refine.Leases

set_option autoImplicit false

/-!
# Refine: the lease verbs

Every lease verb scans the store it starts from and collects one write batch.
Each lemma says what the verb makes of the lease table, for every outcome: a
store that denotes a space denotes the space with that table afterwards.
-/

namespace Homebase.Refine

open Foundation Homebase.Core Server Ledger List

/-! ## Writes to the table -/

section Writes

variable {sha256 : Bytes → ByteArr 32} {space : SpaceId} {store : Store} {L : Space}
  {leases : Leases}

/-- Tables with the same rows are denoted by the same stores. -/
theorem Denotes.congr {leases' : Leases}
    (h : Denotes sha256 space store { L with leases := leases })
    (heq : ∀ id, leases id = leases' id) :
    Denotes sha256 space store { L with leases := leases' } := by
  rwa [funext heq] at h

theorem Denotes.of_leases (h : Denotes sha256 space store L) (heq : ∀ id, L.leases id = leases id) :
    Denotes sha256 space store { L with leases := leases } := by
  rwa [← funext heq]

theorem Known.insert (hk : Known space store) (key : StorageKey) (value : Bytes) :
    Known space (store.insert (key.encode space) value) := by
  intro b v h
  rw [OrdMap.get_insert] at h
  split at h
  next heq => exact ⟨key, heq.symm⟩
  next => exact hk b v h

theorem Known.erase (hk : Known space store) (key : Bytes) : Known space (store.erase key) := by
  intro b v h
  rw [OrdMap.get_erase] at h
  split at h
  next => cases h
  next => exact hk b v h

/-- A row of the table has two images. -/
theorem image_update {row : Option LeaseRecord} {id : LeaseId} {p : Key}
    (hold : ∀ old, L.leases id = some old → old.leasePrefix = p)
    (hnew : ∀ new, row = some new → new.leasePrefix = p) (key : StorageKey) :
    image sha256 space { L with leases := Function.update L.leases id row } key =
      if key = .leaseByPrefix p id then row.map LeaseRecord.encode
      else if key = .leaseById id then row.map LeaseRecord.encode
      else image sha256 space L key := by
  have hfilter : ∀ {r : Option LeaseRecord}, (∀ x, r = some x → x.leasePrefix = p) → ∀ q,
      (r.filter fun record => decide (record.leasePrefix = q)) = if q = p then r else none := by
    intro r hr q
    cases r with
    | none => simp
    | some x => simp [Option.filter_some, hr x rfl, eq_comm]
  cases key with
  | leaseById other => by_cases h : other = id <;> simp [image, h]
  | leaseByPrefix q other =>
    by_cases h : other = id
    · subst h
      by_cases hq : q = p <;> simp [image, hq, hfilter hold, hfilter hnew]
    · simp [image, h]
  | _ => simp [image]

/-- `put_records` sets one row of the table. -/
theorem Denotes.putRecord (hD : Denotes sha256 space store L) (record : LeaseRecord)
    (hsame : ∀ old, L.leases record.id = some old → old.leasePrefix = record.leasePrefix) :
    Denotes sha256 space ((store.insert (leaseByIdKey space record.id) record.encode).insert
        (leaseByPrefixKey space record.leasePrefix record.id) record.encode)
      { L with leases := Function.update L.leases record.id (some record.normalize) } := by
  refine ⟨fun key => ?_, (hD.known.insert (.leaseById _) _).insert (.leaseByPrefix _ _) _⟩
  rw [← encode_leaseById, ← encode_leaseByPrefix, OrdMap.get_insert, OrdMap.get_insert, hD.get,
    image_update hsame (by simp)]
  simp only [StorageKey.encode_inj]
  simp

/-- One record of `purge_records` clears one row of the table. -/
theorem Denotes.dropRecord (hD : Denotes sha256 space store L) (record : LeaseRecord)
    (hsame : ∀ old, L.leases record.id = some old → old.leasePrefix = record.leasePrefix) :
    Denotes sha256 space ((store.erase (leaseByIdKey space record.id)).erase
        (leaseByPrefixKey space record.leasePrefix record.id))
      { L with leases := Function.update L.leases record.id none } := by
  refine ⟨fun key => ?_, (hD.known.erase _).erase _⟩
  rw [← encode_leaseById, ← encode_leaseByPrefix, OrdMap.get_erase, OrdMap.get_erase, hD.get,
    image_update hsame (by simp)]
  simp only [StorageKey.encode_inj]
  rfl

/-- The counters record. -/
theorem Denotes.putCounters (hD : Denotes sha256 space store L) (record : CountersRecord) :
    Denotes sha256 space (store.insert (countersKey space) record.encode)
      { L with counters := some record } := by
  refine ⟨fun key => ?_, hD.known.insert .counters _⟩
  rw [← encode_counters, OrdMap.get_insert, hD.get]
  simp only [StorageKey.encode_inj]
  cases key <;> simp [image]

variable {batch : WriteBatch}

theorem putRecords_denotes (hD : Denotes sha256 space (store.apply batch) L) (record : LeaseRecord)
    (hsame : ∀ old, L.leases record.id = some old → old.leasePrefix = record.leasePrefix) :
    Denotes sha256 space (store.apply (putRecords space batch record))
      { L with leases := Function.update L.leases record.id (some record.normalize) } := by
  rw [putRecords, Store.apply_put, Store.apply_put]
  exact hD.putRecord record hsame

/-- `purge_records` clears the rows of its records. -/
theorem purgeRecords_denotes (records : List LeaseRecord)
    (hD : Denotes sha256 space (store.apply batch) { L with leases := leases })
    (hsame : ∀ record ∈ records, ∀ old, leases record.id = some old →
      old.leasePrefix = record.leasePrefix) :
    Denotes sha256 space (store.apply (purgeRecords space batch records))
      { L with leases := fun id =>
          if id ∈ records.map LeaseRecord.id then none else leases id } := by
  induction records generalizing batch leases with
  | nil => simpa [purgeRecords] using hD
  | cons record records ih =>
    have hdrop := hD.dropRecord record (hsame record mem_cons_self)
    rw [← Store.apply_delete, ← Store.apply_delete] at hdrop
    have hrest := ih hdrop fun other hother old hold => by
      by_cases hid : other.id = record.id
      · rw [hid, Function.update_self] at hold
        cases hold
      · rw [Function.update_of_ne hid] at hold
        exact hsame other (mem_cons_of_mem _ hother) old hold
    refine Denotes.congr hrest fun id => ?_
    by_cases hid : id = record.id
    · simp [hid]
    · simp [hid]

/-- Purging the records that a scan selected filters the table. -/
theorem purge_filter (hK : Keyed L.leases) {keep drop : LeaseRecord → Bool}
    {records : List LeaseRecord}
    (hmem : ∀ record, record ∈ records ↔ (∃ id, L.leases id = some record) ∧ drop record = true)
    (hD : Denotes sha256 space (store.apply batch)
      { L with leases := fun id => (L.leases id).filter keep }) :
    Denotes sha256 space (store.apply (purgeRecords space batch records))
      { L with leases := fun id =>
          (L.leases id).filter fun record => keep record && !drop record } := by
  have hstored : ∀ record ∈ records, L.leases record.id = some record := by
    intro record hrecord
    obtain ⟨⟨id, hid⟩, -⟩ := (hmem record).mp hrecord
    rw [(hK id record hid).1, hid]
  have hpurge := purgeRecords_denotes records hD fun record hrecord old hold => by
    rw [hstored record hrecord] at hold
    obtain ⟨heq, -⟩ := Option.filter_eq_some_iff.mp hold
    rw [Option.some.inj heq]
  refine Denotes.congr hpurge fun id => ?_
  cases hid : L.leases id with
  | none => simp
  | some record =>
    have hin : id ∈ records.map LeaseRecord.id ↔ drop record = true := by
      constructor
      · intro h
        obtain ⟨other, hother, rfl⟩ := mem_map.mp h
        rw [hstored other hother] at hid
        exact Option.some.inj hid ▸ ((hmem other).mp hother).2
      · intro h
        rw [← (hK id record hid).1]
        exact mem_map_of_mem ((hmem record).mpr ⟨⟨id, hid⟩, h⟩)
    by_cases hdrop : drop record = true
    · rw [if_pos (hin.mpr hdrop), Option.filter_some, hdrop]
      simp
    · rw [if_neg (mt hin.mp hdrop), Option.filter_some, Option.filter_some]
      simp [hdrop]

end Writes

/-! ## List, renew and release -/

section Verbs

variable {sha256 : Bytes → ByteArr 32} {space : SpaceId} {state : SpaceState} {L : Space}
  (hD : Denotes sha256 space state.store L) (hK : Keyed L.leases)

include hD hK

theorem leaseById_spec (id : LeaseId) : leaseById space state.store id = .ok (L.leases id) := by
  have hget : state.store.get (leaseByIdKey space id) = (L.leases id).map LeaseRecord.encode :=
    hD.get (.leaseById id)
  rw [leaseById]
  cases hid : L.leases id with
  | none => rw [readRecord_of_get_none _ _ (by rw [hget, hid]; rfl)]
  | some record =>
    refine readRecord_of_get_some _ (by rw [hget, hid]; rfl) ?_
    rw [LeaseRecord.decode_encode, (hK id record hid).2]

/-- `list_leases` sweeps the dead leases out. -/
theorem listLeases_spec (now : Timestamp) (req : ListLeasesRequest) :
    Denotes sha256 space (listLeases space state now req).2.store
      { L with leases := swept L.leases now } := by
  obtain ⟨records, hrecords, -, hmem⟩ := leasesUnder_byId (hD.indexed hK)
  simp only [holds_iff hD hK] at hmem
  simp only [listLeases, hrecords]
  have hkeep : Denotes sha256 space (state.store.apply WriteBatch.new)
      { L with leases := fun id => (L.leases id).filter fun _ => true } := by
    refine Denotes.of_leases hD fun id => ?_
    cases L.leases id <;> rfl
  have hdead : ∀ record, record ∈ records.filter (fun record => !record.isLive now) ↔
      (∃ id, L.leases id = some record) ∧ (!record.isLive now) = true := by
    intro record
    rw [mem_filter, hmem]
  exact Denotes.congr (purge_filter hK hdead hkeep) fun id => by simp [swept]

omit hD hK in
theorem renewed_concat (leases : Leases) (now : Timestamp) (req : RenewRequest)
    (ids : List LeaseId) (id : LeaseId) : renewed leases now req (ids ++ [id]) =
      Function.update (renewed leases now req ids) id
        ((leases id).bind (renewalOf now req)) := by
  funext other
  by_cases h : other = id
  · simp [renewed, h]
  · simp [renewed, h]

omit hD hK in
theorem released_concat (leases : Leases) (now : Timestamp) (device : DeviceId)
    (ids : List LeaseId) (id : LeaseId) : released leases now device (ids ++ [id]) =
      Function.update (released leases now device ids) id
        ((leases id).filter fun record => record.isLive now && decide (record.device ≠ device)) := by
  funext other
  by_cases h : other = id
  · simp [released, h]
  · simp [released, h]

variable {leases : Leases} {now : Timestamp} {ids : List LeaseId} {id : LeaseId} {old : LeaseRecord}

omit hD hK in
/-- A renewal keeps the prefix of a lease. -/
theorem leasePrefix_of_renewed {req : RenewRequest} {record : LeaseRecord}
    (hrecord : leases id = some record) (hold : renewed leases now req ids id = some old) :
    old.leasePrefix = record.leasePrefix := by
  simp only [renewed, hrecord, Option.bind_some, renewalOf] at hold
  split at hold
  · split at hold
    · split at hold <;> cases hold <;> rfl
    · cases hold
  · cases hold
    rfl

/-- One round of the loop of `renew`. -/
theorem renewOne_spec (now : Timestamp) (req : RenewRequest) {acc : WriteBatch × RenewResponse}
    (hacc : Denotes sha256 space (state.store.apply acc.1)
      { L with leases := renewed L.leases now req ids }) (id : LeaseId) :
    ∃ acc', renewOne space state now req acc id = .ok acc' ∧
      Denotes sha256 space (state.store.apply acc'.1)
        { L with leases := renewed L.leases now req (ids ++ [id]) } := by
  obtain ⟨batch, response⟩ := acc
  rw [renewed_concat]
  simp only [renewOne, leaseById_spec hD hK, ok_bind]
  cases hid : L.leases id with
  | none =>
    refine ⟨_, rfl, Denotes.congr hacc fun other => ?_⟩
    by_cases h : other = id
    · simp [h, renewed, hid]
    · simp [h]
  | some record =>
    obtain ⟨hrid, hnorm⟩ := hK id record hid
    by_cases hlive : record.isLive now = true
    · by_cases hdev : record.device = req.device
      · -- extended
        refine ⟨_, if_pos ⟨hlive, hdev⟩, ?_⟩
        have hput := putRecords_denotes hacc (renewedRecord now req record) fun old hold => by
          have hold' : renewed L.leases now req ids id = some old := by rw [← hrid]; exact hold
          exact (leasePrefix_of_renewed hid hold' : old.leasePrefix = record.leasePrefix)
        refine Denotes.congr hput fun other => ?_
        rw [renewedRecord_normalize hnorm]
        simp [renewedRecord, hrid, renewalOf, hlive, hdev]
      · -- a live lease of another device stays
        refine ⟨_, (if_neg fun h => hdev h.2).trans rfl, ?_⟩
        rw [if_pos hlive]
        refine Denotes.congr hacc fun other => ?_
        by_cases h : other = id
        · simp [h, renewed, hid, renewalOf, hlive, hdev]
        · simp [h]
    · -- a dead lease goes
      refine ⟨_, (if_neg fun h => hlive h.1).trans rfl, ?_⟩
      rw [if_neg hlive]
      have hpurge := purgeRecords_denotes [record] hacc fun other hother old hold => by
        rw [mem_singleton.mp hother] at hold ⊢
        rw [hrid] at hold
        exact leasePrefix_of_renewed hid hold
      refine Denotes.congr hpurge fun other => ?_
      by_cases h : other = id
      · simp [h, hrid, renewalOf, hlive]
      · simp [h, hrid]

/-- `renew` extends the live leases of the device and drops the dead ones it names. -/
theorem renew_spec (now : Timestamp) (req : RenewRequest) :
    Denotes sha256 space (renew space state now req).2.store
      { L with leases := renewed L.leases now req req.leases } := by
  obtain ⟨acc, hacc, hfinal⟩ := exists_foldlM_eq_ok
    (fun done (acc : WriteBatch × RenewResponse) => Denotes sha256 space (state.store.apply acc.1)
      { L with leases := renewed L.leases now req done })
    (fun done id acc h => renewOne_spec hD hK now req h id) (s := (WriteBatch.new, ⟨[], []⟩))
    (Denotes.of_leases hD fun id => by simp [renewed]) req.leases
  rw [renew, hacc]
  exact hfinal

omit hD hK in
/-- A release keeps the leases it does not drop as they are. -/
theorem eq_of_released {device : DeviceId} (hold : released leases now device ids id = some old) :
    leases id = some old := by
  rw [released] at hold
  split at hold
  · exact (Option.filter_eq_some_iff.mp hold).1
  · exact hold

/-- One round of the loop of `release`. -/
theorem releaseOne_spec (now : Timestamp) (req : ReleaseRequest) {acc : WriteBatch × Finset LeaseId}
    (hacc : Denotes sha256 space (state.store.apply acc.1)
      { L with leases := released L.leases now req.device ids }) (id : LeaseId) :
    ∃ acc', releaseOne space state.store now req acc id = .ok acc' ∧
      Denotes sha256 space (state.store.apply acc'.1)
        { L with leases := released L.leases now req.device (ids ++ [id]) } := by
  obtain ⟨batch, demand⟩ := acc
  rw [released_concat]
  simp only [releaseOne, leaseById_spec hD hK, ok_bind]
  cases hid : L.leases id with
  | none =>
    refine ⟨_, rfl, Denotes.congr hacc fun other => ?_⟩
    by_cases h : other = id
    · simp [h, released, hid]
    · simp [h]
  | some record =>
    obtain ⟨hrid, -⟩ := hK id record hid
    by_cases hgone : (!record.isLive now) = true ∨ record.device = req.device
    · refine ⟨_, if_pos hgone, ?_⟩
      have hpurge := purgeRecords_denotes [record] hacc fun other hother old hold => by
        rw [mem_singleton.mp hother] at hold ⊢
        rw [hrid] at hold
        rw [Option.some.inj ((eq_of_released hold).symm.trans hid)]
      refine Denotes.congr hpurge fun other => ?_
      by_cases h : other = id
      · have hfalse : (record.isLive now && decide (record.device ≠ req.device)) = false := by
          rcases hgone with hdead | hdev
          · simp_all
          · simp [hdev]
        rw [h, Function.update_self, Option.filter_some, hfalse]
        simp [hrid]
      · simp [h, hrid]
    · refine ⟨_, if_neg hgone, Denotes.congr hacc fun other => ?_⟩
      by_cases h : other = id
      · obtain ⟨hlive, hdev⟩ := not_or.mp hgone
        have hkeep : (record.isLive now && decide (record.device ≠ req.device)) = true := by
          simp_all
        simp only [h, released, hid, Option.filter_some, hkeep, Function.update_self, if_true,
          ite_self]
      · simp [h]

/-- `release` drops the leases it names, those of live other devices apart. -/
theorem release_spec (now : Timestamp) (req : ReleaseRequest) :
    Denotes sha256 space (release space state now req).2.store
      { L with leases := released L.leases now req.device req.leases } := by
  obtain ⟨acc, hacc, hfinal⟩ := exists_foldlM_eq_ok
    (fun done (acc : WriteBatch × Finset LeaseId) => Denotes sha256 space (state.store.apply acc.1)
      { L with leases := released L.leases now req.device done })
    (fun done id acc h => releaseOne_spec hD hK now req h id) (s := (WriteBatch.new, state.demand))
    (Denotes.of_leases hD fun id => by simp [released]) req.leases
  rw [release, hacc]
  exact hfinal

end Verbs

/-! ## Acquire -/

section Acquire

variable {sha256 : Bytes → ByteArr 32} {space : SpaceId} {store : Store} {L : Space}

/-- The conflict loop of `acquire`: it stops at the first spec that a live lease
excludes, and purges the dead leases that overlap the specs it looked at. -/
theorem checkSpecs_spec (hD : Denotes sha256 space store L) (hK : Keyed L.leases)
    (now : Timestamp) (specs done : List LeaseSpec) {purge : WriteBatch}
    (hP : Denotes sha256 space (store.apply purge)
      { L with leases := purged L.leases now done }) :
    ∃ purge' contention, checkSpecs space store now specs purge = .ok (purge', contention) ∧
      ((contention = none ∧ (∀ spec ∈ specs, Unopposed L.leases now spec) ∧
          Denotes sha256 space (store.apply purge')
            { L with leases := purged L.leases now (done ++ specs) }) ∨
        (contention.isSome = true ∧ (∃ spec ∈ specs, ¬ Unopposed L.leases now spec) ∧
          ∃ looked, Denotes sha256 space (store.apply purge')
            { L with leases := purged L.leases now looked })) := by
  induction specs generalizing done purge with
  | nil => exact ⟨purge, none, rfl, Or.inl ⟨rfl, by simp, by rwa [append_nil]⟩⟩
  | cons spec rest ih =>
    obtain ⟨live, dead, hscan, hlive, hdead⟩ := overlapping_spec hD hK now spec.leasePrefix
    have hdrop : ∀ record, record ∈ dead ↔ (∃ id, L.leases id = some record) ∧
        (!record.isLive now && prefixesOverlap record.leasePrefix spec.leasePrefix) = true := by
      intro record
      rw [hdead, Bool.and_eq_true, Bool.not_eq_true']
    have hpurge := Denotes.congr (purge_filter hK hdrop hP) fun id =>
      (show _ = purged L.leases now (done ++ [spec]) id by
        rw [purged]
        refine congrArg (fun keep => (L.leases id).filter keep) (funext fun record => ?_)
        cases record.isLive now <;> simp)
    rw [checkSpecs, hscan, ok_bind]
    simp only
    split
    next hnone =>
      obtain ⟨purge', contention, hrest, hcases⟩ := ih (done ++ [spec]) hpurge
      refine ⟨purge', contention, hrest, hcases.imp (fun h => ?_) fun h => ?_⟩
      · obtain ⟨hc, hunopposed, hD'⟩ := h
        refine ⟨hc, fun other hother => ?_, by rwa [append_assoc] at hD'⟩
        rcases mem_cons.mp hother with rfl | hother
        · intro id record hid hl ho
          by_contra hnot
          have hin : record ∈ live.filter fun record => !other.mode.compatibleWith record.mode :=
            mem_filter.mpr ⟨(hlive record).mpr ⟨⟨id, hid⟩, hl, ho⟩, by simpa using hnot⟩
          rw [hnone] at hin
          cases hin
        · exact hunopposed other hother
      · obtain ⟨hc, ⟨other, hother, hopposed⟩, hD'⟩ := h
        exact ⟨hc, ⟨other, mem_cons_of_mem _ hother, hopposed⟩, hD'⟩
    next hsome =>
      refine ⟨_, _, rfl, Or.inr ⟨rfl, ⟨spec, mem_cons_self, fun hunopposed => ?_⟩,
        done ++ [spec], hpurge⟩⟩
      obtain ⟨record, hrecord⟩ := exists_mem_of_ne_nil _ hsome
      obtain ⟨hmem, hincompatible⟩ := mem_filter.mp hrecord
      obtain ⟨⟨id, hid⟩, hl, ho⟩ := (hlive record).mp hmem
      rw [hunopposed id record hid hl ho] at hincompatible
      cases hincompatible

/-- No two specs of a request exclude each other when the second loop finds none. -/
theorem selfConflict_eq_none_iff {specs : List LeaseSpec} :
    selfConflict specs = none ↔ specs.Pairwise fun a b => specsConflict a b = false := by
  induction specs with
  | nil => simp [selfConflict]
  | cons spec rest ih =>
    rw [selfConflict, pairwise_cons, ← ih]
    cases h : rest.find? (specsConflict spec) with
    | none =>
      have hall : ∀ other ∈ rest, specsConflict spec other = false := by simpa using h
      exact ⟨fun hrest => ⟨hall, hrest⟩, And.right⟩
    | some other =>
      simp only [reduceCtorEq, false_iff, not_and]
      intro hall
      have htrue := find?_some h
      rw [hall other (mem_of_find?_eq_some h)] at htrue
      cases htrue

/-- The grant loop of `acquire`: fresh ids, unless they run out. -/
theorem grantSpecs_spec (now : Timestamp) (req : AcquireRequest) (barrier : AdmissionSeq)
    (specs : List LeaseSpec) {grants : Grants} {leases : Leases}
    (hD : Denotes sha256 space (store.apply grants.batch) { L with leases := leases })
    (hbelow : ∀ id record, leases id = some record → id < grants.counters.nextLeaseId) :
    ((∃ message, grantSpecs space now req barrier specs grants = .error (.panic message)) ∧
        2 ^ 64 ≤ grants.counters.nextLeaseId.val + specs.length) ∨
      ∃ grants', grantSpecs space now req barrier specs grants = .ok grants' ∧
        grants.counters.nextLeaseId.val + specs.length < 2 ^ 64 ∧
        grants'.counters = { grants.counters with
          nextLeaseId := U64.ofNat (grants.counters.nextLeaseId.val + specs.length) } ∧
        Denotes sha256 space (store.apply grants'.batch)
          { L with leases := granted now req barrier specs grants.counters.nextLeaseId leases } := by
  induction specs generalizing grants leases with
  | nil =>
    refine Or.inr ⟨grants, rfl, grants.counters.nextLeaseId.isLt, ?_, hD⟩
    simp [U64.ofNat_val]
  | cons spec rest ih =>
    rw [grantSpecs, addOne_eq]
    split
    next hlt =>
      have hput := putRecords_denotes hD
        (grantedRecord now req barrier grants.counters.nextLeaseId spec) fun old hold =>
          absurd (hbelow _ old hold) (lt_irrefl _)
      have hfresh : ∀ id record, Function.update leases grants.counters.nextLeaseId
          (some (grantedRecord now req barrier grants.counters.nextLeaseId spec).normalize) id =
            some record → id < U64.ofNat (grants.counters.nextLeaseId.val + 1) := by
        intro id record hid
        rw [Fin.lt_def, U64.val_ofNat hlt]
        by_cases h : id = grants.counters.nextLeaseId
        · rw [h]
          exact Nat.lt_succ_self _
        · rw [Function.update_of_ne h] at hid
          exact Nat.lt_succ_of_lt (Fin.lt_def.mp (hbelow id record hid))
      have hrest := @ih ⟨{ grants.counters with
        nextLeaseId := U64.ofNat (grants.counters.nextLeaseId.val + 1) },
        putRecords space grants.batch
          (grantedRecord now req barrier grants.counters.nextLeaseId spec),
        grants.leases ++ [publicLease
          (grantedRecord now req barrier grants.counters.nextLeaseId spec)]⟩ _ hput hfresh
      simp only [U64.val_ofNat hlt] at hrest
      rw [length_cons, Nat.add_comm rest.length 1, ← Nat.add_assoc]
      exact hrest
    next hge => exact Or.inl ⟨⟨_, rfl⟩, by rw [length_cons]; omega⟩

variable {state : SpaceState}

/-- What `acquire` does: it reports a conflict, having purged dead leases; or it
panics and changes nothing; or it grants every spec. -/
theorem acquire_spec (hD : Denotes sha256 space state.store L) (hV : L.Valid sha256 space)
    (now : Timestamp) (req : AcquireRequest) :
    (∃ conflict retryAfter looked,
        (acquire space state now req).1 = .error (.kernel (.contended conflict retryAfter)) ∧
        ¬ Grantable L.leases now req.specs ∧
        Denotes sha256 space (acquire space state now req).2.store
          { L with leases := purged L.leases now looked }) ∨
      (∃ message, (acquire space state now req).1 = .error (.panic message) ∧
        2 ^ 64 ≤ L.record.nextLeaseId.val + req.specs.length ∧
        (acquire space state now req).2 = state) ∨
      (∃ leases, (acquire space state now req).1 = .ok leases ∧
        Grantable L.leases now req.specs ∧
        L.record.nextLeaseId.val + req.specs.length < 2 ^ 64 ∧
        Denotes sha256 space (acquire space state now req).2.store (L.acquired now req)) := by
  have hstart : Denotes sha256 space (state.store.apply WriteBatch.new)
      { L with leases := purged L.leases now [] } := by
    refine Denotes.of_leases hD fun id => ?_
    cases h : L.leases id <;> simp [purged, h, Option.filter_some]
  obtain ⟨purge, contention, hcheck, hcases⟩ := checkSpecs_spec hD hV.keyed now req.specs [] hstart
  rw [acquire, hcheck]
  rcases hcases with ⟨rfl, hunopposed, hpurge⟩ | ⟨hsome, ⟨spec, hspec, hopposed⟩, looked, hpurge⟩
  · cases hself : selfConflict req.specs with
    | some conflict =>
      refine Or.inl ⟨conflict, none, req.specs, rfl, fun hgrantable => ?_, hpurge⟩
      rw [selfConflict_eq_none_iff.mpr hgrantable.request] at hself
      cases hself
    | none =>
      have hbelow : ∀ id record, purged L.leases now ([] ++ req.specs) id = some record →
          id < L.record.nextLeaseId := by
        intro id record hid
        exact hV.below id record (Option.filter_eq_some_iff.mp hid).1
      have hgrant := @grantSpecs_spec sha256 space state.store L now req
        L.record.admissionHighWater req.specs ⟨L.record, purge, []⟩ _ hpurge hbelow
      rcases hgrant with ⟨⟨message, herror⟩, hfull⟩ | ⟨grants, hgrants, hroom, hcounters, hfinal⟩
      · refine Or.inr (Or.inl ⟨message, ?_⟩)
        simp only [grant, counters_spec hD, ok_bind, herror, error_bind, true_and, and_true]
        exact hfull
      · refine Or.inr (Or.inr ⟨grants.leases, ?_⟩)
        simp only [grant, counters_spec hD, ok_bind, hgrants, Store.apply_put, hcounters, true_and]
        exact ⟨⟨hunopposed, selfConflict_eq_none_iff.mp hself⟩, hroom, hfinal.putCounters _⟩
  · obtain ⟨c, rfl⟩ := Option.isSome_iff_exists.mp hsome
    exact Or.inl ⟨c.conflict, c.retryAfter, looked, rfl,
      fun hgrantable => hopposed (hgrantable.unopposed spec hspec), hpurge⟩

end Acquire

end Homebase.Refine
