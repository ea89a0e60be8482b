import Homebase.Refine.Materialized

set_option autoImplicit false

/-!
# Refine: scans of the Data keyspace

A scan returns the rows whose storage keys begin with a byte prefix.  In a store
that only holds keys of one space, the byte prefix of a component list selects
the records of one kind whose components extend the list
(`StorageKey.isPrefix_encode_iff`), and rows come in the order of their
components.  `rowsUnder_eq` turns that into an equation for any sorted list of
the selected records.
-/

namespace Homebase.Refine

open Foundation Homebase.Core Server Ledger List

/-- Every key of the store is a storage key of the space. -/
def Known (space : SpaceId) (store : Store) : Prop :=
  ∀ b v, store.get b = some v → ∃ key : StorageKey, key.encode space = b

/-- A typed row as the store has it. -/
def rowBytes (space : SpaceId) (p : StorageKey × Bytes) : Bytes × Bytes :=
  (p.1.encode space, p.2)

theorem mem_rowsUnder (store : Store) (base : Bytes) :
    ∃ rows, rowsUnder store base = .ok rows ∧
      (∀ b v, (b, v) ∈ rows ↔ store.get b = some v ∧ base <+: b) ∧
      rows.Pairwise fun a b => a.1 < b.1 := by
  have h := Store.scanPrefix_eq_some store base
  refine ⟨_, by rw [rowsUnder, h]; rfl, fun b v => Store.mem_scanPrefix_iff h, ?_⟩
  exact Store.scanPrefix_sorted h

variable {space : SpaceId}

/-- A scan returns the selected records in order. -/
theorem rowsUnder_eq {store : Store} (hk : Known space store) {kind : RecordKind}
    {head : List KeyComponent} {ps : List (StorageKey × Bytes)}
    (hsorted : ps.Pairwise fun a b => a.1.encode space < b.1.encode space)
    (hmem : ∀ key v, (key, v) ∈ ps ↔
      store.get (key.encode space) = some v ∧ key.kind = kind ∧ head <+: key.tail) :
    rowsUnder store (encodeComponents (kindHead space kind ++ head)) =
      .ok (ps.map (rowBytes space)) := by
  obtain ⟨rows, hrows, hiff, hpw⟩ := mem_rowsUnder store
    (encodeComponents (kindHead space kind ++ head))
  rw [hrows]
  congr 1
  refine eq_of_pairwise_of_mem_iff (fun a b hab hba => lt_asymm hab hba) hpw
    (pairwise_map.mpr hsorted) ?_
  rintro ⟨b, v⟩
  rw [hiff, mem_map]
  constructor
  · rintro ⟨hget, hpre⟩
    obtain ⟨key, rfl⟩ := hk b v hget
    rw [StorageKey.isPrefix_encode_iff] at hpre
    exact ⟨(key, v), (hmem key v).mpr ⟨hget, hpre⟩, rfl⟩
  · rintro ⟨⟨key, w⟩, hp, heq⟩
    obtain ⟨hget, hsel⟩ := (hmem key w).mp hp
    obtain ⟨rfl, rfl⟩ := Prod.mk.inj heq
    exact ⟨hget, (StorageKey.isPrefix_encode_iff space kind head key).mpr hsel⟩

theorem StorageKey.data_encode_lt {a b : Key} (h : a < b) :
    (StorageKey.data a).encode space < (StorageKey.data b).encode space := by
  refine encodeComponents_lt ?_
  exact (append_lt_append_iff _ _ _).mpr (Key.lt_iff.mp h)

/-- The components a range scan over the Data keyspace begins with. -/
def rangeHead : Range → List KeyComponent
  | .full => []
  | .prefixed p => p.components

theorem rangeHead_isPrefix_iff {range : Range} {key : Key} :
    rangeHead range <+: key.components ↔ range.coversKey key = true := by
  cases range with
  | full => simp [rangeHead]
  | prefixed p => exact Key.startsWith_iff.symm

/-- The rows of a range scan, as last point operations. -/
def dataRows (es : List Entry) (range : Range) : List (StorageKey × Bytes) :=
  ((lastPoints es).entries.filter fun p => range.coversKey p.1).map fun p =>
    (StorageKey.data p.1, pointBytes p.2)

theorem kind_eq_data_iff {key : StorageKey} :
    key.kind = .data ↔ ∃ k, key = StorageKey.data k := by
  constructor
  · intro h
    rcases key with k | _ | _ | _ | _ | (_ | _) | _ | _ | _ <;>
      first | exact ⟨k, rfl⟩ | exact RecordKind.noConfusion h
  · rintro ⟨k, rfl⟩
    rfl

section Data

variable {space : SpaceId} {store : Store} {es : List Entry}
  (hk : Known space store) (hm : Materialized space store es) (hc : Chronicle es)

include hk hm

theorem rowsUnder_data (range : Range) :
    rowsUnder store (encodeComponents (kindHead space .data ++ rangeHead range)) =
      .ok ((dataRows es range).map (rowBytes space)) := by
  refine rowsUnder_eq hk ?_ ?_
  · refine pairwise_map.mpr (((lastPoints es).sorted.filter _).imp ?_)
    intro a b hab
    exact StorageKey.data_encode_lt hab
  · intro key v
    rw [dataRows, mem_map]
    constructor
    · rintro ⟨⟨k, e⟩, hp, heq⟩
      obtain ⟨rfl, rfl⟩ := Prod.mk.inj heq
      obtain ⟨hmem, hcov⟩ := mem_filter.mp hp
      have hget := OrdMap.mem_entries_iff.mp hmem
      rw [get_lastPoints] at hget
      refine ⟨?_, rfl, rangeHead_isPrefix_iff.mpr hcov⟩
      exact (hm.data k).trans (by rw [hget]; rfl)
    · rintro ⟨hget, hkind, hpre⟩
      obtain ⟨k, rfl⟩ := kind_eq_data_iff.mp hkind
      have hdata := (hm.data k).symm.trans hget
      obtain ⟨e, he, rfl⟩ := Option.map_eq_some_iff.mp hdata
      refine ⟨(k, e), mem_filter.mpr ⟨?_, rangeHead_isPrefix_iff.mp hpre⟩, rfl⟩
      rw [OrdMap.mem_entries_iff, get_lastPoints, he]

end Data

/-! ## Loops over the rows -/

/-- The row of a last point operation. -/
def pointRow (space : SpaceId) (p : Key × Entry) : Bytes × Bytes :=
  (dataKey space p.1, pointBytes p.2)

theorem map_rowBytes_dataRows (space : SpaceId) (es : List Entry) (range : Range) :
    (dataRows es range).map (rowBytes space) =
      ((lastPoints es).entries.filter fun p => range.coversKey p.1).map (pointRow space) := by
  rw [dataRows, map_map]
  rfl

/-- The page a limit leaves of the visible entries, and whether there are more. -/
def pageOf (limit : Option Nat) (visible : List Entry) : ListResponse :=
  match limit with
  | none => ⟨visible, false⟩
  | some limit => ⟨visible.take limit, decide (limit < visible.length)⟩

section Loops

variable {space : SpaceId} {store : Store} {es : List Entry}
  (hm : Materialized space store es) (hc : Chronicle es)

include hc

variable {p : Key × Entry}

theorem decodeRow_pointRow (hp : lastPoint es p.1 = some p.2) :
    ∃ record : DataRecord, decodeRow (pointRow space p) = .ok record ∧ record.entry = p.2 ∧
      record.key = p.1 := by
  obtain ⟨hmem, hkey⟩ := mem_of_lastPoint hp
  have hpoint := isDeleteRange_of_pointKey hkey
  refine ⟨⟨p.2, hpoint⟩, ?_, rfl, ?_⟩
  · simp only [decodeRow, pointRow, userKeyFromData_dataKey, expect_some, ok_bind]
    rw [decode_pointBytes hc hp hpoint]
    rfl
  · have := (DataRecord.mk p.2 hpoint).pointKey_eq
    rw [hkey] at this
    exact (Option.some.inj this).symm

include hm

variable {ps : List (Key × Entry)}

theorem snapshotLoop_spec (hps : ∀ p ∈ ps, lastPoint es p.1 = some p.2) (acc : List Entry) :
    snapshotLoop space store (ps.map (pointRow space)) acc =
      .ok (acc ++ (ps.filter fun p => shows es p.1 p.2).map Prod.snd) := by
  induction ps generalizing acc with
  | nil => simp [snapshotLoop]
  | cons p ps ih =>
    obtain ⟨record, hdec, hentry, hkey⟩ :=
      @decodeRow_pointRow space es hc p (hps p mem_cons_self)
    rw [map_cons, snapshotLoop, hdec, ok_bind, pointRecordVisible_spec hm hc, ok_bind,
      ih fun q hq => hps q (mem_cons_of_mem _ hq), hentry, hkey]
    cases hshow : shows es p.1 p.2 <;> simp [hshow]

theorem listLoop_spec (hps : ∀ p ∈ ps, lastPoint es p.1 = some p.2) {limit : Option Nat}
    {acc : List Entry} (hlimit : ∀ n ∈ limit, acc.length ≤ n) :
    listLoop space store limit (ps.map (pointRow space)) acc =
      .ok (pageOf limit (acc ++ (ps.filter fun p => shows es p.1 p.2).map Prod.snd)) := by
  induction ps generalizing acc with
  | nil =>
    cases limit with
    | none => simp [listLoop, pageOf]
    | some n =>
      have hle := hlimit n rfl
      simp [listLoop, pageOf, take_of_length_le hle, Nat.not_lt.mpr hle]
  | cons p ps ih =>
    obtain ⟨record, hdec, hentry, hkey⟩ :=
      @decodeRow_pointRow space es hc p (hps p mem_cons_self)
    have hrest := fun q hq => hps q (mem_cons_of_mem p hq)
    rw [map_cons, listLoop, hdec, ok_bind, pointRecordVisible_spec hm hc, ok_bind, hentry,
      hkey]
    cases hshow : shows es p.1 p.2 with
    | false => simpa [hshow] using ih hrest hlimit
    | true =>
      simp only [Bool.not_true, Bool.false_eq_true, if_false, filter_cons, hshow, if_true,
        map_cons]
      split
      next hfull =>
        -- the page is full and there is one entry more
        obtain ⟨n, rfl, hn⟩ := (Option.any_eq_true _ _).mp hfull
        have hlength : acc.length = n := le_antisymm (hlimit n rfl) (of_decide_eq_true hn)
        simp [pageOf, ← hlength]
      next hroom =>
        rw [ih hrest, append_assoc, singleton_append]
        intro n hn
        have hlt : ¬ n ≤ acc.length := fun hle =>
          hroom ((Option.any_eq_true _ _).mpr ⟨n, hn, decide_eq_true hle⟩)
        rw [length_append, length_singleton]
        omega

omit hm in
/-- The visible rows of a range are its listing. -/
theorem filter_shows_rows (range : Range) :
    ((((lastPoints es).entries.filter fun p => range.coversKey p.1).filter
      fun p => shows es p.1 p.2).map Prod.snd) = listUnder (replay es) range := by
  rw [listUnder, replay_eq_retain hc, OrdMap.retain, filter_filter, filter_filter]
  congr 2
  funext p
  exact Bool.and_comm _ _

omit hm hc in
theorem lastPoint_of_mem_rows {range : Range}
    (hp : p ∈ (lastPoints es).entries.filter fun p => range.coversKey p.1) :
    lastPoint es p.1 = some p.2 := by
  rw [← get_lastPoints]
  exact OrdMap.mem_entries_iff.mp (mem_filter.mp hp).1

variable (hk : Known space store)

include hk

/-- `snapshot` lists the replay; its early exit on a zero count hides nothing. -/
theorem snapshot_spec (hcount : countUnder (replay es) .full < 2 ^ 64) (range : Range) :
    snapshot space store range = .ok (listUnder (replay es) range) := by
  have hle := countUnder_mono (replay es) (Range.full_coversRange range)
  have hrows : snapshotLoop space store
      (((lastPoints es).entries.filter fun p => range.coversKey p.1).map (pointRow space)) [] =
        .ok (listUnder (replay es) range) := by
    rw [snapshotLoop_spec hm hc fun p hp => lastPoint_of_mem_rows hp, filter_shows_rows hc]
    rfl
  rw [snapshot, effectiveLiveCount_spec hm hc, ok_bind]
  split
  next hzero =>
    have hcard : countUnder (replay es) range = 0 := by
      have := congrArg Fin.val hzero
      rwa [U64.val_ofNat (by omega)] at this
    rw [← length_listUnder] at hcard
    rw [length_eq_zero_iff.mp hcard]
  next =>
    have hscan := rowsUnder_data hk hm range
    rw [map_rowBytes_dataRows] at hscan
    have hbase : snapshotBase space range =
        encodeComponents (kindHead space .data ++ rangeHead range) := by
      cases range with
      | full => simp [snapshotBase, dataScanAll, rangeHead]
      | prefixed p => rfl
    rw [hbase, hscan, ok_bind, hrows]

/-- `list` without cursor and limit lists the replay. -/
theorem list_spec (listPrefix : Key) :
    list space store ⟨listPrefix, none, none⟩ =
      .ok ⟨listUnder (replay es) (.prefixed listPrefix), false⟩ := by
  have hscan := rowsUnder_data hk hm (.prefixed listPrefix)
  rw [map_rowBytes_dataRows] at hscan
  have hrows : expect "range start is greater than range end in BTreeMap"
      (store.scan (dataKey space listPrefix) (prefixSuccessor (dataKey space listPrefix))) =
        .ok (((lastPoints es).entries.filter fun p =>
          (Range.prefixed listPrefix).coversKey p.1).map (pointRow space)) := hscan
  simp only [list, listStart, hrows, ok_bind]
  rw [listLoop_spec hm hc (fun p hp => lastPoint_of_mem_rows hp)
    (fun n hn => absurd hn (Option.not_mem_none n)), filter_shows_rows hc]
  rfl

end Loops

end Homebase.Refine
