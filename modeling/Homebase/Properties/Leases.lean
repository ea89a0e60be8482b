import Homebase.Refine.Run

set_option autoImplicit false

/-!
# Properties: what a lease guarantees

A lease that is live now fenced its prefix ever since its barrier, through every
renewal (`barrier_fences`).  The lease table itself is exclusive and its two indexes
agree whatever the clock readings do (`leases_exclusive`).
-/

namespace Homebase.Properties

open Foundation Homebase.Core Server Ledger Refine

/-! ## The fence -/

/-- While clock readings do not decrease, past the barrier of a lease that is live
now no other device admitted a mutation relevant to its prefix. -/
theorem barrier_fences (sha256 : Bytes → ByteArr 32) (space : SpaceId) (verbs : List Verb)
    (hclock : (verbs.filterMap Verb.now?).Pairwise (· ≤ ·)) (now : Timestamp)
    (hnow : ∀ t ∈ verbs.filterMap Verb.now?, t ≤ now) (id : LeaseId) (record : LeaseRecord)
    (hstored : leaseById space (run sha256 space verbs).store id = .ok (some record))
    (hlive : record.isLive now = true) :
    ∀ a ∈ log sha256 space verbs, a.device ≠ record.device → record.barrier < a.seq →
      ∀ entry ∈ a.batch.entries,
        mutationRelevant (.prefixed record.leasePrefix) entry.mutation = false := by
  obtain ⟨L, ⟨hD, hV, hlog⟩, hfenced⟩ := @run_fenced sha256 space verbs hclock now hnow
  rw [leaseById_spec hD hV.keyed] at hstored
  rw [← hlog]
  exact hfenced id record (Except.ok.inj hstored) hlive

/-! A run that meets the hypotheses: the holder of a lease writes under it, another device is
refused there and writes elsewhere. -/

/-- The device that takes the lease. -/
def sampleHolder : DeviceId := ⟨1 :: List.replicate 15 0, by simp⟩

/-- Another device. -/
def sampleWriter : DeviceId := ⟨2 :: List.replicate 15 0, by simp⟩

/-- A key of one component. -/
def sampleKey : Key := Key.ofByte 1

/-- The deletion of a key by a device, as its first submission. -/
def sampleDelete (device : DeviceId) (key : Key) : AdmissionRequest :=
  ⟨device, DeviceChecksum.empty, [], [⟨1, [],
    [⟨.delete key, ⟨device, 1, 1, 0⟩, ⟨.aeadV1, .zero 24, .zero 16, []⟩⟩]⟩]⟩

/-- When the sample lease is acquired. -/
def sampleNow : Timestamp := 5

def sampleVerbs : List Verb :=
  [.acquire sampleNow ⟨sampleHolder, ⟨1, 1, .zero 16⟩, [⟨sampleKey, .write, ⟨10000000⟩⟩]⟩,
    .admitRequest 6 (sampleDelete sampleHolder sampleKey),
    .admitRequest 7 (sampleDelete sampleWriter sampleKey),
    .admitRequest 8 (sampleDelete sampleWriter (Key.ofByte 2))]

/-- The sample lease. -/
def sampleLease : LeaseRecord :=
  ⟨0, sampleKey, .write, sampleHolder, ⟨1, 1, .zero 16⟩, 5, 0, 15, ⟨10000000⟩⟩

theorem leaseById_sampleVerbs :
    leaseById (.zero 16) (run (fun _ => .zero 32) (.zero 16) sampleVerbs).store 0 =
      .ok (some sampleLease) := by
  decide +kernel

theorem barrier_fences_sampleVerbs :
    leaseById (.zero 16) (run (fun _ => .zero 32) (.zero 16) sampleVerbs).store 0 =
        .ok (some sampleLease) ∧
      ((log (fun _ => .zero 32) (.zero 16) sampleVerbs).map fun a => (a.device, a.seq)) =
        [(sampleHolder, 1), (sampleWriter, 2)] ∧
      ∀ a ∈ log (fun _ => .zero 32) (.zero 16) sampleVerbs, a.device ≠ sampleHolder →
        0 < a.seq → ∀ entry ∈ a.batch.entries,
          mutationRelevant (.prefixed sampleKey) entry.mutation = false := by
  have hnow : (sampleVerbs.filterMap Verb.now?).all fun t => decide (t ≤ 9) := by decide +kernel
  exact ⟨leaseById_sampleVerbs, by decide +kernel,
    barrier_fences _ _ sampleVerbs (by decide +kernel) 9
      (fun t ht => of_decide_eq_true (List.all_eq_true.mp hnow t ht)) 0 sampleLease
      leaseById_sampleVerbs (by decide +kernel)⟩

/-! ## The table -/

section Table

variable {sha256 : Bytes → ByteArr 32} {space : SpaceId} {store : Store} {L : Space} {id : LeaseId}
  {bytes : Bytes}

/-- A row of the index by prefix is the row of the same lease in the index by id. -/
theorem leaseByPrefix_eq_some_iff (hD : Denotes sha256 space store L) {p : Key} :
    store.get (leaseByPrefixKey space p id) = some bytes ↔
      ∃ record, L.leases id = some record ∧ record.leasePrefix = p ∧ record.encode = bytes := by
  have hget : store.get (leaseByPrefixKey space p id) =
      ((L.leases id).filter fun record => decide (record.leasePrefix = p)).map
        LeaseRecord.encode := hD.get (.leaseByPrefix p id)
  rw [hget]
  simp [Option.filter_eq_some_iff, and_assoc]

theorem leaseById_eq_some_iff (hD : Denotes sha256 space store L) :
    store.get (leaseByIdKey space id) = some bytes ↔
      ∃ record, L.leases id = some record ∧ record.encode = bytes := by
  have hget : store.get (leaseByIdKey space id) = (L.leases id).map LeaseRecord.encode :=
    hD.get (.leaseById id)
  rw [hget, Option.map_eq_some_iff]

end Table

/-- In every reachable state, whatever the clock readings: overlapping leases have
compatible modes; the two indexes hold the same rows; a lease is stored under its
own id, below the next one to be given out; and a contended acquire creates nothing
and removes only leases that were dead at its reading. -/
theorem leases_exclusive (sha256 : Bytes → ByteArr 32) (space : SpaceId) (verbs : List Verb) :
    let state := run sha256 space verbs
    (∀ a b ra rb, leaseById space state.store a = .ok (some ra) →
      leaseById space state.store b = .ok (some rb) → a ≠ b →
      (ra.leasePrefix.startsWith rb.leasePrefix || rb.leasePrefix.startsWith ra.leasePrefix) →
      ra.mode = .read ∧ rb.mode = .read) ∧
    (∀ id bytes, state.store.get (leaseByIdKey space id) = some bytes ↔
      ∃ p, state.store.get (leaseByPrefixKey space p id) = some bytes) ∧
    (∀ p id bytes, state.store.get (leaseByPrefixKey space p id) = some bytes →
      ∃ record, leaseById space state.store id = .ok (some record) ∧
        record.leasePrefix = p ∧ record.encode = bytes) ∧
    (∀ id, ∃ lease, leaseById space state.store id = .ok lease ∧
      ∀ record, lease = some record → record.id = id ∧
        ∃ c, counters space state.store = .ok c ∧ id < c.nextLeaseId) ∧
    (∀ now req conflict retryAfter,
      (acquire space state now req).1 = .error (.kernel (.contended conflict retryAfter)) →
      ∀ id, ∃ before after, leaseById space state.store id = .ok before ∧
        leaseById space (acquire space state now req).2.store id = .ok after ∧
        (after = before ∨
          (after = none ∧ ∃ record, before = some record ∧ record.isLive now = false))) := by
  obtain ⟨L, hD, hV, -⟩ := run_refines sha256 space verbs
  have hlease := fun id => leaseById_spec hD hV.keyed id
  refine ⟨fun a b ra rb ha hb hne hoverlap => ?_, fun id bytes => ?_, fun p id bytes hrow => ?_,
    fun id => ⟨_, hlease id, fun record hrecord => ?_⟩,
    fun now req conflict retryAfter hcontended id => ?_⟩
  · rw [hlease] at ha hb
    exact LeaseMode.compatibleWith_iff.mp
      (hV.exclusive a b ra rb (Except.ok.inj ha) (Except.ok.inj hb) hne hoverlap)
  · rw [leaseById_eq_some_iff hD]
    constructor
    · rintro ⟨record, hrecord, hbytes⟩
      exact ⟨record.leasePrefix, (leaseByPrefix_eq_some_iff hD).mpr ⟨record, hrecord, rfl, hbytes⟩⟩
    · rintro ⟨p, hrow⟩
      obtain ⟨record, hrecord, -, hbytes⟩ := (leaseByPrefix_eq_some_iff hD).mp hrow
      exact ⟨record, hrecord, hbytes⟩
  · obtain ⟨record, hrecord, hprefixed, hbytes⟩ := (leaseByPrefix_eq_some_iff hD).mp hrow
    exact ⟨record, by rw [hlease, hrecord], hprefixed, hbytes⟩
  · exact ⟨(hV.keyed id record hrecord).1, _, counters_spec hD, hV.below id record hrecord⟩
  · rcases acquire_spec hD hV now req with ⟨_, _, looked, -, -, hD'⟩ | ⟨_, hpanic, -⟩ |
      ⟨_, hgranted, -⟩
    · have hkeyed' : Keyed (purged L.leases now looked) :=
        (derived_purged L.leases now looked).keyed hV.keyed
      refine ⟨_, _, hlease id, leaseById_spec hD' hkeyed' id, ?_⟩
      cases hid : L.leases id with
      | none => exact Or.inl (by simp [purged, hid])
      | some record =>
        cases hlive : record.isLive now with
        | true => exact Or.inl (by simp [purged, hid, hlive, Option.filter_some])
        | false =>
          simp only [purged, hid, Option.filter_some]
          split
          · exact Or.inl rfl
          · exact Or.inr ⟨rfl, record, rfl, hlive⟩
    · rw [hpanic] at hcontended
      cases hcontended
    · rw [hgranted] at hcontended
      cases hcontended

end Homebase.Properties
