import Homebase.Ledger.State
import Homebase.Refine.Scans
import Homebase.Refine.Request

set_option autoImplicit false

/-!
# Refine: the store of a space

`image` says what the store holds for every storage key, as a function of the
abstract space; `Denotes` says that a store holds exactly that and nothing else.
A space therefore determines its store byte for byte.
-/

namespace Homebase.Refine

open Foundation Homebase.Core Server Ledger

/-! ## Storage keys of the record kinds -/

section Encode

variable (space : SpaceId)

theorem encode_data (key : Key) : (StorageKey.data key).encode space = dataKey space key := rfl

theorem encode_rangeDelete (range : Range) :
    (StorageKey.rangeDelete range).encode space = rangeDeleteKey space range := rfl

theorem encode_leaseByPrefix (p : Key) (id : LeaseId) :
    (StorageKey.leaseByPrefix p id).encode space = leaseByPrefixKey space p id := rfl

theorem encode_leaseById (id : LeaseId) :
    (StorageKey.leaseById id).encode space = leaseByIdKey space id := rfl

theorem encode_counters : StorageKey.counters.encode space = countersKey space := rfl

theorem encode_device (device : DeviceId) :
    (StorageKey.device device).encode space = deviceKey space device := rfl

theorem encode_header (seq : AdmissionSeq) :
    (StorageKey.header seq).encode space = admissionHeaderKey space seq := rfl

theorem encode_op (seq : AdmissionSeq) (opIndex : U32) (target : AdmissionTarget) :
    (StorageKey.op seq opIndex target).encode space = targetKey space seq opIndex target := by
  rw [targetKey_eq]
  rfl

end Encode

/-- The storage key of the log row of an entry. -/
def opRow (e : Entry) : StorageKey := .op e.seq e.admission.opIndex (opTarget e)

theorem encode_opRow (space : SpaceId) (e : Entry) : (opRow e).encode space = opKey space e :=
  encode_op space _ _ _

/-! ## What a space stores -/

section Image

variable (sha256 : Bytes → ByteArr 32) (space : SpaceId)

/-- What the store of a space holds under a key. -/
def image (L : Space) : StorageKey → Option Bytes
  | .data key => (lastPoint (events L.log) key).map pointBytes
  | .rangeDelete range => (rangeOf (events L.log) range).map RangeDeleteRecord.encode
  | .aggregate range => (metaOf (events L.log) range).map PrefixMetaRecord.encode
  | .leaseByPrefix p id =>
      ((L.leases id).filter fun record => decide (record.leasePrefix = p)).map LeaseRecord.encode
  | .leaseById id => (L.leases id).map LeaseRecord.encode
  | .counters => L.counters.map CountersRecord.encode
  | .device device => (L.devices device).map DeviceRecord.encode
  | .header seq =>
      (latest (fun batch => decide (batch.admissionSeq = seq))
        (admittedBatches sha256 space L.log)).map fun batch => (headerOf batch).encode
  | .op seq opIndex target =>
      (latest (fun e => decide (opRow e = .op seq opIndex target)) (events L.log)).map opBytes

/-- The store holds what the space says, and nothing else. -/
structure Denotes (store : Store) (L : Space) : Prop where
  get : ∀ key, store.get (key.encode space) = image sha256 space L key
  known : Known space store

end Image

section Denotes

variable {sha256 : Bytes → ByteArr 32} {space : SpaceId} {store : Store} {L : Space}

theorem Denotes.initial : Denotes sha256 space OrdMap.empty Space.initial where
  get key := by cases key <;> rfl
  known := by
    intro b v h
    cases h

/-- A space determines its store. -/
theorem Denotes.unique {store' : Store} (h : Denotes sha256 space store L)
    (h' : Denotes sha256 space store' L) : store = store' := by
  refine OrdMap.ext_get fun b => ?_
  by_cases hb : ∃ key : StorageKey, key.encode space = b
  · obtain ⟨key, rfl⟩ := hb
    rw [h.get, h'.get]
  · have hnone : ∀ s : Store, Known space s → s.get b = none := by
      intro s hs
      cases hg : s.get b with
      | none => rfl
      | some v => exact absurd (hs b v hg) hb
    rw [hnone store h.known, hnone store' h'.known]

theorem Denotes.materialized (h : Denotes sha256 space store L) :
    Materialized space store (events L.log) where
  data key := h.get (.data key)
  ranges range := h.get (.rangeDelete range)
  aggregates range := by
    rw [← aggregate_encode]
    exact h.get (.aggregate range)

/-! ## Single records -/

theorem counters_spec (h : Denotes sha256 space store L) :
    counters space store = .ok L.record := by
  have hget : store.get (countersKey space) = L.counters.map CountersRecord.encode :=
    h.get .counters
  rw [counters, Space.record]
  cases hc : L.counters with
  | none => rw [readRecord_of_get_none _ _ (by rw [hget, hc]; rfl)]; rfl
  | some record =>
    rw [readRecord_of_get_some _ (by rw [hget, hc]; rfl) (CountersRecord.decode_encode record)]
    rfl

theorem device_spec (h : Denotes sha256 space store L) (id : DeviceId) :
    device space store id = .ok (L.devices id) := by
  have hget : store.get (deviceKey space id) = (L.devices id).map DeviceRecord.encode :=
    h.get (.device id)
  rw [device]
  cases hd : L.devices id with
  | none => rw [readRecord_of_get_none _ _ (by rw [hget, hd]; rfl)]
  | some record =>
    rw [readRecord_of_get_some _ (by rw [hget, hd]; rfl) (DeviceRecord.decode_encode record)]

end Denotes

/-! ## Rows written under storage keys -/

/-- Writing rows: a key holds what the last row under it says. -/
theorem lastWrite_rows {α : Type} (space : SpaceId) (f : α → StorageKey) (g : α → Bytes)
    (l : List α) (key : StorageKey) :
    Store.lastWrite (key.encode space) (l.map fun x => .put ((f x).encode space) (g x)) =
      (latest (fun x => decide (f x = key)) l).map fun x => some (g x) := by
  induction l using List.reverseRecOn with
  | nil => rfl
  | append_singleton l x ih =>
    rw [List.map_append, Store.lastWrite_append, ih, latest_append, List.map_singleton,
      Store.lastWrite_singleton_put, latest_singleton]
    by_cases h : f x = key
    · simp [h]
    · have hne : key.encode space ≠ (f x).encode space :=
        fun heq => h (StorageKey.encode_injective space heq).symm
      simp [h, hne]

end Homebase.Refine
