import Homebase.Refine.Denotes

set_option autoImplicit false

/-!
# Refine: the lease table in the store

Every lease is stored under two keys, by id and by prefix.  The scans of the
source walk one depth at a time; together they find exactly the leases whose
prefix overlaps, or covers, what they are asked for.  The write helpers change
both indexes at once, so a store that denotes a space keeps denoting one with the
table updated.
-/

namespace Homebase.Refine

open Foundation Homebase.Core Server Ledger List

/-! ## Scans -/

theorem mapM_expect_eq_ok {α β : Type} (message : String) (f : α → Option β) (l : List α)
    (h : ∀ x ∈ l, (f x).isSome = true) :
    l.mapM (fun x => expect message (f x)) = .ok (l.filterMap f) := by
  induction l with
  | nil => rfl
  | cons x l ih =>
    obtain ⟨y, hy⟩ := Option.isSome_iff_exists.mp (h x mem_cons_self)
    rw [mapM_cons, hy, expect_some, ih fun z hz => h z (mem_cons_of_mem _ hz),
      filterMap_cons_some hy]
    rfl

/-- A store holds a lease record under its id. -/
def Holds (space : SpaceId) (store : Store) (record : LeaseRecord) : Prop :=
  ∃ v, store.get (leaseByIdKey space record.id) = some v ∧ LeaseRecord.decode v = some record

/-- The two indexes agree: each row is a lease under the key of its index, and a lease has a row
in both or in none of them. -/
structure Indexed (space : SpaceId) (store : Store) : Prop where
  byId : ∀ b v, store.get b = some v → leaseByIdScan space <+: b →
    ∃ record, LeaseRecord.decode v = some record ∧ b = leaseByIdKey space record.id
  byPrefix : ∀ b v, store.get b = some v →
    encodeComponents (kindHead space .leaseByPrefix) <+: b →
      ∃ record, LeaseRecord.decode v = some record ∧
        b = leaseByPrefixKey space record.leasePrefix record.id
  agree : ∀ record, Holds space store record ↔
    ∃ v, store.get (leaseByPrefixKey space record.leasePrefix record.id) = some v ∧
      LeaseRecord.decode v = some record

/-- A scan over rows that are leases, each under its own key, returns every lease once. -/
theorem leasesUnder_exact {store : Store} {base : Bytes} {place : LeaseRecord → Bytes}
    (hrow : ∀ b v, store.get b = some v → base <+: b →
      ∃ record, LeaseRecord.decode v = some record ∧ b = place record) :
    ∃ records, leasesUnder store base = .ok records ∧ records.Nodup ∧
      ∀ record, record ∈ records ↔ base <+: place record ∧
        ∃ v, store.get (place record) = some v ∧ LeaseRecord.decode v = some record := by
  obtain ⟨rows, hrows, hmem, hsorted⟩ := mem_rowsUnder store base
  have hlease : ∀ row ∈ rows, ∃ record, LeaseRecord.decode row.2 = some record ∧
      row.1 = place record := by
    intro row hin
    obtain ⟨hget, hpre⟩ := (hmem row.1 row.2).mp hin
    exact hrow row.1 row.2 hget hpre
  refine ⟨rows.filterMap fun row => LeaseRecord.decode row.2, ?_, ?_, fun record => ?_⟩
  · rw [leasesUnder, hrows, ok_bind]
    refine mapM_expect_eq_ok _ (fun row => LeaseRecord.decode row.2) rows fun row hin => ?_
    obtain ⟨record, hdecode, -⟩ := hlease row hin
    rw [hdecode]
    rfl
  · refine List.Nodup.of_map place ?_
    have hplaces : (rows.filterMap fun row => LeaseRecord.decode row.2).map place =
        rows.map Prod.fst := by
      rw [map_filterMap, ← filterMap_eq_map]
      refine filterMap_congr fun row hin => ?_
      obtain ⟨record, hdecode, hkey⟩ := hlease row hin
      rw [hdecode, Function.comp_apply, hkey]
      rfl
    rw [hplaces]
    exact pairwise_map.mpr (hsorted.imp fun h => h.ne)
  · rw [mem_filterMap]
    constructor
    · rintro ⟨row, hin, hdecode⟩
      obtain ⟨stored, hstored, hkey⟩ := hlease row hin
      cases hstored.symm.trans hdecode
      obtain ⟨hget, hpre⟩ := (hmem row.1 row.2).mp hin
      exact ⟨hkey ▸ hpre, row.2, hkey ▸ hget, hdecode⟩
    · rintro ⟨hpre, v, hget, hdecode⟩
      exact ⟨(place record, v), (hmem _ _).mpr ⟨hget, hpre⟩, hdecode⟩

theorem scanHead_isPrefix_iff {depth : Nat} (hdepth : depth ≤ maxComponents)
    {head : List KeyComponent} (hhead : head.length ≤ depth) (p : Key) (id : LeaseId) :
    depthComponent depth :: head <+: (StorageKey.leaseByPrefix p id).tail ↔
      p.components.length = depth ∧ head <+: p.components := by
  rw [StorageKey.tail, cons_prefix_cons]
  constructor
  · rintro ⟨hdep, hpre⟩
    have hlen : p.components.length = depth := (depthComponent_inj hdepth p.count_le hdep).symm
    exact ⟨hlen, prefix_of_prefix_length_le hpre (prefix_append _ _) (hlen ▸ hhead)⟩
  · rintro ⟨rfl, hpre⟩
    exact ⟨rfl, hpre.trans (prefix_append _ _)⟩

section Indexed

variable {space : SpaceId} {store : Store} (hI : Indexed space store)

include hI

/-- The scan by id returns all leases. -/
theorem leasesUnder_byId :
    ∃ records, leasesUnder store (leaseByIdScan space) = .ok records ∧ records.Nodup ∧
      ∀ record, record ∈ records ↔ Holds space store record := by
  obtain ⟨records, hrecords, hnodup, hmem⟩ := leasesUnder_exact hI.byId
  refine ⟨records, hrecords, hnodup, fun record => ?_⟩
  rw [hmem]
  refine and_iff_right ?_
  rw [leaseByIdScan, leaseByIdKey, encodeComponents_append]
  exact prefix_append _ _

/-- The scan at one depth returns the leases of that depth under the head. -/
theorem leasesUnder_byPrefix {depth : Nat} (hdepth : depth ≤ maxComponents)
    {head : List KeyComponent} (hhead : head.length ≤ depth) :
    ∃ records, leasesUnder store (leaseByPrefixScan space depth head) = .ok records ∧
      records.Nodup ∧ ∀ record, record ∈ records ↔ Holds space store record ∧
        record.leasePrefix.components.length = depth ∧ head <+: record.leasePrefix.components := by
  have hbase : encodeComponents (kindHead space .leaseByPrefix) <+:
      leaseByPrefixScan space depth head := by
    rw [leaseByPrefixScan, encodeComponents_append]
    exact prefix_append _ _
  have hrow : ∀ b v, store.get b = some v → leaseByPrefixScan space depth head <+: b →
      ∃ record, LeaseRecord.decode v = some record ∧
        b = leaseByPrefixKey space record.leasePrefix record.id :=
    fun b v hget hpre => hI.byPrefix b v hget (hbase.trans hpre)
  obtain ⟨records, hrecords, hnodup, hmem⟩ := leasesUnder_exact hrow
  refine ⟨records, hrecords, hnodup, fun record => ?_⟩
  rw [hmem, hI.agree, ← encode_leaseByPrefix, leaseByPrefixScan,
    StorageKey.isPrefix_encode_iff, scanHead_isPrefix_iff hdepth hhead]
  exact ⟨fun h => ⟨h.2, h.1.2⟩, fun h => ⟨⟨rfl, h.2⟩, h.1⟩⟩

/-- Several scans at different depths return the leases of all of them. -/
theorem leasesUnderAll_byPrefix {scans : List (Nat × List KeyComponent)}
    (hscans : ∀ scan ∈ scans, scan.1 ≤ maxComponents ∧ scan.2.length ≤ scan.1)
    (hdepths : (scans.map Prod.fst).Nodup) :
    ∃ records, leasesUnderAll store (scans.map fun scan => leaseByPrefixScan space scan.1 scan.2) =
        .ok records ∧ records.Nodup ∧
      ∀ record, record ∈ records ↔ Holds space store record ∧
        ∃ scan ∈ scans, record.leasePrefix.components.length = scan.1 ∧
          scan.2 <+: record.leasePrefix.components := by
  induction scans with
  | nil => exact ⟨[], rfl, nodup_nil, by simp⟩
  | cons scan scans ih =>
    obtain ⟨hdepth, hhead⟩ := hscans scan mem_cons_self
    obtain ⟨hfresh, hdepths⟩ := nodup_cons.mp hdepths
    obtain ⟨records, hrecords, hnodup, hmem⟩ := leasesUnder_byPrefix hI hdepth hhead
    obtain ⟨rest, hrest, hnodupRest, hmemRest⟩ :=
      ih (fun scan h => hscans scan (mem_cons_of_mem _ h)) hdepths
    obtain ⟨found, hfound, hflat⟩ := of_bind hrest
    cases hflat
    refine ⟨records ++ found.flatten, ?_, nodup_append'.mpr ⟨hnodup, hnodupRest, ?_⟩,
      fun record => ?_⟩
    · rw [leasesUnderAll, map_cons, mapM_cons, hrecords, ok_bind, hfound]
      rfl
    · intro record hhere hthere
      obtain ⟨-, other, hother, hlen, -⟩ := (hmemRest record).mp hthere
      rw [← ((hmem record).mp hhere).2.1, hlen] at hfresh
      exact hfresh (mem_map_of_mem hother)
    · rw [mem_append, hmem, hmemRest]
      simp only [mem_cons, exists_eq_or_imp]
      tauto

omit hI in
/-- The scan for a prefix at the depth of another finds it when the two overlap. -/
theorem take_isPrefix_iff (p q : Key) :
    p.components.take (min q.components.length p.components.length) <+: q.components ↔
      prefixesOverlap q p = true := by
  rw [prefixesOverlap, Bool.or_eq_true, Key.startsWith_iff, Key.startsWith_iff]
  constructor
  · intro h
    rcases le_total p.components.length q.components.length with hle | hle
    · left
      rwa [min_eq_right hle, take_length] at h
    · right
      rw [min_eq_left hle] at h
      have heq := h.eq_of_length (by rw [length_take, min_eq_left hle])
      rw [← heq]
      exact take_prefix _ _
  · rintro (h | h)
    · rwa [min_eq_right h.length_le, take_length]
    · rw [min_eq_left h.length_le, ← prefix_iff_eq_take.mp h]

omit hI in
/-- The depths of a family of scans, one after the other. -/
theorem nodup_depths (n : Nat) (head : Nat → List KeyComponent) :
    ((((List.range n).map (· + 1)).map fun depth => (depth, head depth)).map Prod.fst).Nodup := by
  rw [map_map, map_map]
  exact nodup_range.map (add_left_injective 1)

/-- `overlapping` finds the leases whose prefix overlaps, each once. -/
theorem overlapping_exact (now : Timestamp) (p : Key) :
    ∃ live dead, overlapping space store now p = .ok (live, dead) ∧ live.Nodup ∧ dead.Nodup ∧
      (∀ record, record ∈ live ↔ Holds space store record ∧
        record.isLive now = true ∧ prefixesOverlap record.leasePrefix p = true) ∧
      (∀ record, record ∈ dead ↔ Holds space store record ∧
        record.isLive now = false ∧ prefixesOverlap record.leasePrefix p = true) := by
  have hbounded : ∀ scan ∈ ((List.range maxComponents).map (· + 1)).map
      (fun depth => (depth, p.components.take (min depth p.components.length))),
      scan.1 ≤ maxComponents ∧ scan.2.length ≤ scan.1 := by
    intro scan hscan
    simp only [mem_map, mem_range] at hscan
    obtain ⟨depth, ⟨i, hi, rfl⟩, rfl⟩ := hscan
    exact ⟨hi, by simp⟩
  obtain ⟨records, hrecords, hnodup, hmem⟩ :=
    leasesUnderAll_byPrefix hI hbounded (nodup_depths _ _)
  have hscans : leasesUnderAll store (overlappingScans space p) = .ok records := by
    rw [← hrecords, map_map]
    rfl
  have hoverlap : ∀ record, record ∈ records ↔ Holds space store record ∧
      prefixesOverlap record.leasePrefix p = true := by
    intro record
    rw [hmem, ← take_isPrefix_iff]
    refine and_congr_right fun _ => ?_
    simp only [mem_map, mem_range]
    constructor
    · rintro ⟨scan, ⟨depth, -, rfl⟩, hlen, hpre⟩
      rw [hlen]
      exact hpre
    · intro hpre
      have hpos := length_pos_of_ne_nil record.leasePrefix.ne_nil
      have hle := record.leasePrefix.count_le
      refine ⟨_, ⟨record.leasePrefix.components.length,
        ⟨record.leasePrefix.components.length - 1, ?_, ?_⟩, rfl⟩, rfl, hpre⟩ <;> omega
  refine ⟨_, _, by rw [overlapping, hscans]; rfl, hnodup.filter _, hnodup.filter _, ?_, ?_⟩
  · intro record
    rw [mem_filter, hoverlap]
    tauto
  · intro record
    rw [mem_filter, hoverlap]
    simp only [Bool.not_eq_true']
    tauto

/-- `covering` finds the live leases whose prefix covers the key, each once. -/
theorem covering_exact (now : Timestamp) (key : Key) :
    ∃ live, covering space store now key = .ok live ∧ live.Nodup ∧
      ∀ record, record ∈ live ↔ Holds space store record ∧
        record.isLive now = true ∧ key.startsWith record.leasePrefix = true := by
  have hbounded : ∀ scan ∈ ((List.range key.components.length).map (· + 1)).map
      (fun depth => (depth, key.components.take depth)),
      scan.1 ≤ maxComponents ∧ scan.2.length ≤ scan.1 := by
    intro scan hscan
    simp only [mem_map, mem_range] at hscan
    obtain ⟨depth, ⟨i, hi, rfl⟩, rfl⟩ := hscan
    have := key.count_le
    exact ⟨by omega, by simp⟩
  obtain ⟨records, hrecords, hnodup, hmem⟩ :=
    leasesUnderAll_byPrefix hI hbounded (nodup_depths _ _)
  rw [map_map] at hrecords
  refine ⟨records.filter fun record => record.isLive now, ?_, hnodup.filter _, fun record => ?_⟩
  · exact congrArg (fun found => found >>= fun records =>
      Except.ok (records.filter fun record => record.isLive now)) hrecords
  rw [mem_filter, hmem, Key.startsWith_iff]
  simp only [mem_map, mem_range]
  constructor
  · rintro ⟨⟨hid, scan, ⟨depth, ⟨i, hi, rfl⟩, rfl⟩, hlen, hpre⟩, hlive⟩
    refine ⟨hid, hlive, ?_⟩
    rw [← hpre.eq_of_length (by rw [length_take, hlen]; omega)]
    exact take_prefix _ _
  · rintro ⟨hid, hlive, hpre⟩
    have hpos := length_pos_of_ne_nil record.leasePrefix.ne_nil
    have hle := hpre.length_le
    refine ⟨⟨hid, _, ⟨record.leasePrefix.components.length,
      ⟨record.leasePrefix.components.length - 1, ?_, ?_⟩, rfl⟩, rfl, ?_⟩, hlive⟩
    · omega
    · omega
    · rw [← prefix_iff_eq_take.mp hpre]

end Indexed

/-! ## The table of a space -/

variable {key : StorageKey}

theorem kind_eq_leaseById_iff : key.kind = .leaseById ↔ ∃ id, key = StorageKey.leaseById id := by
  constructor
  · intro h
    rcases key with _ | _ | _ | id | _ | (_ | _) | _ | _ | _ <;>
      first | exact ⟨id, rfl⟩ | exact RecordKind.noConfusion h
  · rintro ⟨id, rfl⟩
    rfl

theorem kind_eq_leaseByPrefix_iff :
    key.kind = .leaseByPrefix ↔ ∃ p id, key = StorageKey.leaseByPrefix p id := by
  constructor
  · intro h
    rcases key with _ | _ | ⟨p, id⟩ | _ | _ | (_ | _) | _ | _ | _ <;>
      first | exact ⟨p, id, rfl⟩ | exact RecordKind.noConfusion h
  · rintro ⟨p, id, rfl⟩
    rfl

section Table

variable {sha256 : Bytes → ByteArr 32} {space : SpaceId} {store : Store} {L : Space}
  (hD : Denotes sha256 space store L) (hK : Keyed L.leases)

include hD hK

omit hD in
theorem decode_lease {id : LeaseId} {record : LeaseRecord} (h : L.leases id = some record) :
    LeaseRecord.decode record.encode = some record := by
  rw [LeaseRecord.decode_encode, (hK id record h).2]

theorem holds_iff (record : LeaseRecord) :
    Holds space store record ↔ ∃ id, L.leases id = some record := by
  have hget : ∀ id, store.get (leaseByIdKey space id) = (L.leases id).map LeaseRecord.encode :=
    fun id => hD.get (.leaseById id)
  constructor
  · rintro ⟨v, hv, hdecode⟩
    rw [hget] at hv
    obtain ⟨stored, hstored, rfl⟩ := Option.map_eq_some_iff.mp hv
    cases (decode_lease hK hstored).symm.trans hdecode
    exact ⟨_, hstored⟩
  · rintro ⟨id, hid⟩
    refine ⟨record.encode, ?_, decode_lease hK hid⟩
    rw [(hK id record hid).1, hget, hid]
    rfl

theorem Denotes.indexed : Indexed space store where
  byId b v hget hpre := by
    obtain ⟨key, rfl⟩ := hD.known b v hget
    rw [leaseByIdScan, ← append_nil (kindHead space _), StorageKey.isPrefix_encode_iff] at hpre
    obtain ⟨id, rfl⟩ := kind_eq_leaseById_iff.mp hpre.1
    rw [hD.get] at hget
    obtain ⟨record, hrecord, rfl⟩ := Option.map_eq_some_iff.mp hget
    exact ⟨record, decode_lease hK hrecord, by rw [(hK id record hrecord).1, encode_leaseById]⟩
  byPrefix b v hget hpre := by
    obtain ⟨key, rfl⟩ := hD.known b v hget
    rw [← append_nil (kindHead space _), StorageKey.isPrefix_encode_iff] at hpre
    obtain ⟨p, id, rfl⟩ := kind_eq_leaseByPrefix_iff.mp hpre.1
    rw [hD.get] at hget
    obtain ⟨record, hrecord, rfl⟩ := Option.map_eq_some_iff.mp hget
    obtain ⟨hid, hp⟩ := Option.filter_eq_some_iff.mp hrecord
    refine ⟨record, decode_lease hK hid, ?_⟩
    rw [(hK id record hid).1, of_decide_eq_true hp, encode_leaseByPrefix]
  agree record := by
    rw [holds_iff hD hK, ← encode_leaseByPrefix, hD.get]
    constructor
    · rintro ⟨id, hid⟩
      refine ⟨record.encode, ?_, decode_lease hK hid⟩
      simp [image, (hK id record hid).1, hid]
    · rintro ⟨v, hv, hdecode⟩
      obtain ⟨stored, hstored, rfl⟩ := Option.map_eq_some_iff.mp hv
      obtain ⟨hid, -⟩ := Option.filter_eq_some_iff.mp hstored
      cases (decode_lease hK hid).symm.trans hdecode
      exact ⟨_, hid⟩

/-- `overlapping` finds the leases whose prefix overlaps. -/
theorem overlapping_spec (now : Timestamp) (p : Key) :
    ∃ live dead, overlapping space store now p = .ok (live, dead) ∧
      (∀ record, record ∈ live ↔ (∃ id, L.leases id = some record) ∧
        record.isLive now = true ∧ prefixesOverlap record.leasePrefix p = true) ∧
      (∀ record, record ∈ dead ↔ (∃ id, L.leases id = some record) ∧
        record.isLive now = false ∧ prefixesOverlap record.leasePrefix p = true) := by
  obtain ⟨live, dead, hscan, -, -, hlive, hdead⟩ := overlapping_exact (hD.indexed hK) now p
  simp only [holds_iff hD hK] at hlive hdead
  exact ⟨live, dead, hscan, hlive, hdead⟩

/-- `all_live` finds the live leases. -/
theorem allLive_spec (now : Timestamp) :
    ∃ live, allLive space store now = .ok live ∧
      ∀ record, record ∈ live ↔ (∃ id, L.leases id = some record) ∧
        record.isLive now = true := by
  obtain ⟨records, hrecords, -, hmem⟩ := leasesUnder_byId (hD.indexed hK)
  refine ⟨_, by rw [allLive, hrecords]; rfl, fun record => ?_⟩
  rw [mem_filter, hmem, holds_iff hD hK]

/-! ## The reservation check -/

omit hD hK in
/-- A check for a foreign lease among those found decides whether the way is blocked. -/
theorem any_foreign_iff {now : Timestamp} (device : DeviceId) (inWay : Range → Bool)
    {live : List LeaseRecord}
    (hmem : ∀ record, record ∈ live ↔ (∃ id, L.leases id = some record) ∧
      record.isLive now = true ∧ inWay (.prefixed record.leasePrefix) = true) :
    (live.any fun record => decide (record.device ≠ device)) = true ↔
      Blocked L.leases now device inWay := by
  rw [any_eq_true]
  constructor
  · rintro ⟨record, hrecord, hne⟩
    obtain ⟨⟨id, hid⟩, hlive, hway⟩ := (hmem record).mp hrecord
    exact ⟨id, record, hid, hlive, of_decide_eq_true hne, hway⟩
  · rintro ⟨id, record, hid, hlive, hne, hway⟩
    exact ⟨record, (hmem record).mpr ⟨⟨id, hid⟩, hlive, hway⟩, decide_eq_true hne⟩

theorem validateKey_spec (now : Timestamp) (device : DeviceId) (key : Key) :
    validateKey space store now device key = specKey L.leases now device key := by
  obtain ⟨live, hlive, -, hmem⟩ := covering_exact (hD.indexed hK) now key
  simp only [holds_iff hD hK] at hmem
  have hiff := any_foreign_iff device (fun p => p.coversKey key) hmem
  rw [validateKey, hlive, ok_bind, specKey]
  split
  next h => rw [if_pos (hiff.mp h)]
  next h => rw [if_neg (mt hiff.mpr h)]

omit hD hK in
theorem overlaps_prefixed (a b : Key) :
    (Range.prefixed a).overlaps (.prefixed b) = prefixesOverlap a b := by
  rw [Range.overlaps, prefixesOverlap, Bool.or_comm]
  rfl

theorem validateRange_spec (now : Timestamp) (device : DeviceId) (range : Range) :
    validateRange space store now device range = specRange L.leases now device range := by
  have hdecide : ∀ live : List LeaseRecord,
      (∀ record, record ∈ live ↔ (∃ id, L.leases id = some record) ∧
        record.isLive now = true ∧ (Range.prefixed record.leasePrefix).overlaps range = true) →
      (if (live.any fun record => decide (record.device ≠ device)) = true then
        Except.error (Failure.kernel (KernelError.rangeContended range none)) else .ok ()) =
          specRange L.leases now device range := by
    intro live hmem
    have hiff := any_foreign_iff device (fun p => p.overlaps range) hmem
    rw [specRange]
    split
    next h => rw [if_pos (hiff.mp h)]
    next h => rw [if_neg (mt hiff.mpr h)]
  unfold validateRange
  cases range with
  | full =>
    obtain ⟨live, hlive, hmem⟩ := allLive_spec hD hK now
    simp only [hlive, ok_bind]
    refine hdecide live fun record => ?_
    rw [hmem]
    simp [Range.overlaps]
  | prefixed p =>
    obtain ⟨live, dead, hscan, hmem, -⟩ := overlapping_spec hD hK now p
    simp only [hscan, Except.map, ok_bind]
    refine hdecide live fun record => ?_
    rw [hmem, overlaps_prefixed]

/-- The reservation check is the one stated over the table. -/
theorem validateWrites_spec (now : Timestamp) (req : AdmissionRequest) :
    validateWrites space store now req.device req.evidence (requestKeys req)
      (requestRanges req) = specWrites L.leases now req := by
  rw [validateWrites, specWrites, funext (validateKey_spec hD hK now req.device),
    funext (validateRange_spec hD hK now req.device)]

end Table

end Homebase.Refine
