import Homebase.Ledger.Log

set_option autoImplicit false

/-!
# Ledger: a space without its storage

The abstract state of a space: the log of admissions, the last state of each
device, the lease table and the counters.  The verbs that change a space are
stated over it.  What the store holds is a function of this state, so that the
refinement of the code reduces to facts about records.
-/

namespace Homebase.Ledger

open Foundation Homebase.Core Server List

/-- The lease table. -/
abbrev Leases : Type := LeaseId → Option LeaseRecord

/-- A space without its storage. -/
structure Space where
  log : List Admission
  devices : DeviceId → Option DeviceRecord
  leases : Leases
  counters : Option CountersRecord

namespace Space

/-- A space nothing happened in. -/
def initial : Space := ⟨[], fun _ => none, fun _ => none, none⟩

/-- The counters, as read. -/
def record (L : Space) : CountersRecord := L.counters.getD CountersRecord.default

/-- The last sequence of a device, as read. -/
def lastSeq (L : Space) (device : DeviceId) : DeviceSeq :=
  (L.devices device).elim 0 DeviceRecord.lastSeq

/-- The checksum of a device, as read. -/
def checksum (L : Space) (device : DeviceId) : DeviceChecksum :=
  (L.devices device).elim DeviceChecksum.empty DeviceRecord.checksum

end Space

/-! ## Reservations -/

/-- A live lease of another device stands in the way. -/
def Blocked (leases : Leases) (now : Timestamp) (device : DeviceId) (inWay : Range → Bool) :
    Prop :=
  ∃ id record, leases id = some record ∧ record.isLive now = true ∧ record.device ≠ device ∧
    inWay (.prefixed record.leasePrefix) = true

open Classical in
/-- The reservation check of a point write. -/
noncomputable def specKey (leases : Leases) (now : Timestamp) (device : DeviceId) (key : Key) :
    Except Failure Unit :=
  if Blocked leases now device fun p => p.coversKey key then
    .error (.kernel (.contended key none))
  else .ok ()

open Classical in
/-- The reservation check of a range write. -/
noncomputable def specRange (leases : Leases) (now : Timestamp) (device : DeviceId)
    (range : Range) : Except Failure Unit :=
  if Blocked leases now device fun p => p.overlaps range then
    .error (.kernel (.rangeContended range none))
  else .ok ()

/-- The reservation check of a request: keys first, then ranges. -/
noncomputable def specWrites (leases : Leases) (now : Timestamp) (req : AdmissionRequest) :
    Except Failure Unit := do
  (requestKeys req).forM (specKey leases now req.device)
  (requestRanges req).forM (specRange leases now req.device)

/-! ## Admission -/

section Admit

variable (sha256 : Bytes → ByteArr 32) (space : SpaceId)

/-- The ledger after a request of a device was admitted. -/
def Space.append (L : Space) (device : DeviceId) (last : DeviceSeq) (added : List Admission) :
    Space where
  log := L.log ++ added
  devices := Function.update L.devices device
    (some ⟨last, chain sha256 space device (L.log ++ added)⟩)
  leases := L.leases
  counters := some
    { L.record with admissionHighWater := U64.ofNat (L.log.length + added.length) }

/-- The response to an admitted request. -/
def appliedResponse (device : DeviceId) (log added : List Admission) : AdmissionResponse where
  checksum := chain sha256 space device (log ++ added)
  results := added.map fun a => .applied a.seq

/-- Admission, over the ledger. -/
noncomputable def specAdmit (L : Space) (now : Timestamp) (req : AdmissionRequest) :
    Except Exit (AdmissionResponse × Space) :=
  if req.expectedChecksum ≠ L.checksum req.device then
    .error (.failure (.kernel
      (.deviceChecksumMismatch (L.lastSeq req.device) (L.checksum req.device))))
  else do
    let last ← orExit (checkDeviceSeqs true (L.lastSeq req.device) req.batches)
    orExit (specWrites L.leases now req)
    let added ← specBatches (fun failures => .response (failedResponse req.batches.length
      (.rangeAssertFailed failures) (L.checksum req.device))) req.device L.log req.batches
    .ok (appliedResponse sha256 space req.device L.log added,
      L.append sha256 space req.device last added)

end Admit

/-! ## Leases -/

/-- Two prefixes overlap when one starts with the other. -/
def prefixesOverlap (a b : Key) : Bool := a.startsWith b || b.startsWith a

/-- The table without the dead leases that overlap one of the specs. -/
def purged (leases : Leases) (now : Timestamp) (specs : List LeaseSpec) : Leases := fun id =>
  (leases id).filter fun record =>
    record.isLive now || !specs.any fun spec => prefixesOverlap record.leasePrefix spec.leasePrefix

/-- No live lease excludes the spec. -/
def Unopposed (leases : Leases) (now : Timestamp) (spec : LeaseSpec) : Prop :=
  ∀ id record, leases id = some record → record.isLive now = true →
    prefixesOverlap record.leasePrefix spec.leasePrefix = true →
      spec.mode.compatibleWith record.mode = true

/-- The specs of a request exclude neither live leases nor each other. -/
structure Grantable (leases : Leases) (now : Timestamp) (specs : List LeaseSpec) : Prop where
  unopposed : ∀ spec ∈ specs, Unopposed leases now spec
  request : specs.Pairwise fun a b => specsConflict a b = false

/-- The table after the specs were granted, with ids from `next` on. -/
def granted (now : Timestamp) (req : AcquireRequest) (barrier : AdmissionSeq) :
    List LeaseSpec → LeaseId → Leases → Leases
  | [], _, leases => leases
  | spec :: rest, next, leases =>
      granted now req barrier rest (U64.ofNat (next.val + 1))
        (Function.update leases next (some (grantedRecord now req barrier next spec).normalize))

/-- The ledger after an acquire was granted. -/
def Space.acquired (L : Space) (now : Timestamp) (req : AcquireRequest) : Space :=
  { L with
    leases := granted now req L.record.admissionHighWater req.specs L.record.nextLeaseId
      (purged L.leases now req.specs)
    counters := some
      { L.record with nextLeaseId := U64.ofNat (L.record.nextLeaseId.val + req.specs.length) } }

/-- What a renewal makes of one lease: a dead one goes, a live one of the device is
extended. -/
def renewalOf (now : Timestamp) (req : RenewRequest) (record : LeaseRecord) :
    Option LeaseRecord :=
  if record.isLive now then
    some (if record.device = req.device then renewedRecord now req record else record)
  else none

theorem renewedRecord_normalize {now : Timestamp} {req : RenewRequest} {record : LeaseRecord}
    (h : record.normalize = record) :
    (renewedRecord now req record).normalize = renewedRecord now req record := by
  have httl : Duration.fromMillis record.ttl.clampedMillis = record.ttl :=
    congrArg LeaseRecord.ttl h
  simp [renewedRecord, LeaseRecord.normalize, httl]

/-- The table after the leases `ids` were renewed. -/
def renewed (leases : Leases) (now : Timestamp) (req : RenewRequest) (ids : List LeaseId) :
    Leases := fun id => if id ∈ ids then (leases id).bind (renewalOf now req) else leases id

/-- The table after the leases `ids` were released: live leases of others stay. -/
def released (leases : Leases) (now : Timestamp) (device : DeviceId) (ids : List LeaseId) :
    Leases := fun id =>
  if id ∈ ids then
    (leases id).filter fun record => record.isLive now && decide (record.device ≠ device)
  else leases id

/-- The table without its dead leases. -/
def swept (leases : Leases) (now : Timestamp) : Leases := fun id =>
  (leases id).filter fun record => record.isLive now

/-! ## Device sequences -/

variable {first : Bool}

/-- Accepted device sequences rise from the last one on. -/
theorem checkDeviceSeqs_ok {last last' : DeviceSeq} {batches : List AdmissionBatch}
    (h : checkDeviceSeqs first last batches = .ok last') :
    (batches.map AdmissionBatch.deviceSeq).Pairwise (· < ·) ∧
      (∀ batch ∈ batches, last < batch.deviceSeq) ∧
      last' = (batches.map AdmissionBatch.deviceSeq).getLast?.getD last := by
  induction batches generalizing first last with
  | nil =>
    cases h
    simp
  | cons batch rest ih =>
    rw [checkDeviceSeqs] at h
    split at h
    next => cases h
    next hlt =>
      have hlt : last < batch.deviceSeq := not_le.mp hlt
      have hrest : ∃ first', checkDeviceSeqs first' batch.deviceSeq rest = .ok last' := by
        split at h
        · exact ⟨false, h⟩
        · obtain ⟨next, -, h⟩ := of_bind h
          split at h
          · cases h
          · exact ⟨false, h⟩
      obtain ⟨first', hrest⟩ := hrest
      obtain ⟨hpair, hall, hlast⟩ := ih hrest
      refine ⟨?_, ?_, ?_⟩
      · rw [map_cons, pairwise_cons]
        refine ⟨fun seq hseq => ?_, hpair⟩
        obtain ⟨b, hb, rfl⟩ := mem_map.mp hseq
        exact hall b hb
      · intro b hb
        rcases mem_cons.mp hb with rfl | hb
        · exact hlt
        · exact hlt.trans (hall b hb)
      · rw [hlast, map_cons, getLast?_cons]
        rfl

/-- The batches carry consecutive device sequence numbers. -/
def Consecutive (batches : List AdmissionBatch) : Prop :=
  batches.IsChain fun a b => b.deviceSeq.val = a.deviceSeq.val + 1

/-- Behind the first batch, consecutive numbers pass the device check. -/
theorem checkDeviceSeqs_of_consecutive {batch : AdmissionBatch} {rest : List AdmissionBatch}
    (h : Consecutive (batch :: rest)) :
    checkDeviceSeqs first batch.deviceSeq rest =
      .ok ((rest.map AdmissionBatch.deviceSeq).getLast?.getD batch.deviceSeq) := by
  induction rest generalizing batch first with
  | nil => rfl
  | cons next rest ih =>
    obtain ⟨hnext, hrest⟩ := isChain_cons_cons.mp h
    have hlt : ¬ next.deviceSeq ≤ batch.deviceSeq := by
      rw [Fin.le_def]
      omega
    have hadd : addOne batch.deviceSeq = .ok next.deviceSeq := by
      have := next.deviceSeq.isLt
      rw [addOne_eq, if_pos (by omega), ← hnext, U64.ofNat_val]
    rw [checkDeviceSeqs, if_neg hlt, map_cons, getLast?_cons, hadd, ok_bind, ih hrest]
    cases first <;> simp

/-! ## Well-formed spaces -/

/-- Leases are stored under their own id, in the form they read back. -/
def Keyed (leases : Leases) : Prop :=
  ∀ id record, leases id = some record → record.id = id ∧ record.normalize = record

/-- Leases with overlapping prefixes have compatible modes. -/
def Exclusive (leases : Leases) : Prop :=
  ∀ a b ra rb, leases a = some ra → leases b = some rb → a ≠ b →
    prefixesOverlap ra.leasePrefix rb.leasePrefix = true → ra.mode.compatibleWith rb.mode = true

/-- What every reachable space satisfies of its log and its devices. -/
structure Space.Valid (sha256 : Bytes → ByteArr 32) (space : SpaceId) (L : Space) : Prop where
  logged : Logged L.log
  highWater : L.record.admissionHighWater = U64.ofNat L.log.length
  checksum : ∀ device, L.checksum device = chain sha256 space device L.log
  lastSeq : ∀ device, L.lastSeq device =
    (stream device L.log).getLast?.elim 0 fun a => a.batch.deviceSeq
  deviceSeqs : ∀ device,
    (stream device L.log).Pairwise fun a b => a.batch.deviceSeq < b.batch.deviceSeq
  keyed : Keyed L.leases
  below : ∀ id record, L.leases id = some record → id < L.record.nextLeaseId
  exclusive : Exclusive L.leases

section Admit

variable {sha256 : Bytes → ByteArr 32} {space : SpaceId} {L : Space} {device : DeviceId}
  {added : List Admission}

theorem Space.Valid.initial : Space.Valid sha256 space Space.initial where
  logged := Logged.nil
  highWater := rfl
  checksum _ := rfl
  lastSeq _ := rfl
  deviceSeqs _ := List.Pairwise.nil
  keyed _ _ h := by cases h
  below _ _ h := by cases h
  exclusive _ _ _ _ h := by cases h

variable {log : List Admission}

theorem stream_append_own (hown : ∀ a ∈ added, a.device = device) :
    stream device (log ++ added) = stream device log ++ added := by
  have hall : stream device added = added :=
    filter_eq_self.mpr fun a ha => decide_eq_true (hown a ha)
  rw [stream, filter_append, ← stream, ← stream, hall]

theorem stream_append_other {other : DeviceId} (hne : other ≠ device)
    (hown : ∀ a ∈ added, a.device = device) : stream other (log ++ added) = stream other log := by
  have hnone : stream other added = [] :=
    filter_eq_nil_iff.mpr fun a ha => by simp [hown a ha, hne.symm]
  rw [stream, filter_append, ← stream, ← stream, hnone, append_nil]

/-- The last of rising device sequences is the greatest. -/
theorem deviceSeq_le_last {as : List Admission}
    (h : as.Pairwise fun a b => a.batch.deviceSeq < b.batch.deviceSeq) {a : Admission}
    (ha : a ∈ as) : a.batch.deviceSeq ≤ as.getLast?.elim 0 fun b => b.batch.deviceSeq := by
  induction as using List.reverseRecOn with
  | nil => cases ha
  | append_singleton as b _ =>
    rw [getLast?_concat, Option.elim_some]
    rcases mem_append.mp ha with ha | ha
    · exact ((pairwise_append.mp h).2.2 a ha b (mem_singleton_self b)).le
    · rw [mem_singleton.mp ha]

/-- What an admitted request went through. -/
theorem specAdmit_eq_ok_iff {now : Timestamp} {req : AdmissionRequest}
    {response : AdmissionResponse} {L' : Space} :
    specAdmit sha256 space L now req = .ok (response, L') ↔
      req.expectedChecksum = L.checksum req.device ∧
      ∃ last added, checkDeviceSeqs true (L.lastSeq req.device) req.batches = .ok last ∧
        specWrites L.leases now req = .ok () ∧
        specBatches (fun failures => .response (failedResponse req.batches.length
          (.rangeAssertFailed failures) (L.checksum req.device))) req.device L.log req.batches =
            .ok added ∧
        response = appliedResponse sha256 space req.device L.log added ∧
        L' = L.append sha256 space req.device last added := by
  unfold specAdmit
  split
  next hne => simp [hne]
  next heq =>
    rw [not_not] at heq
    constructor
    · intro h
      obtain ⟨last, hlast, h⟩ := of_bind h
      obtain ⟨_, hwrites, h⟩ := of_bind h
      obtain ⟨added, hadded, h⟩ := of_bind h
      cases h
      exact ⟨heq, last, added, orExit_eq_ok_iff.mp hlast, orExit_eq_ok_iff.mp hwrites, hadded,
        rfl, rfl⟩
    · rintro ⟨-, last, added, hlast, hwrites, hadded, rfl, rfl⟩
      rw [hlast, hwrites]
      simp only [orExit, ok_bind, hadded]

/-- An admitted request keeps a space well formed. -/
theorem Space.Valid.append (hV : L.Valid sha256 space) {batches : List AdmissionBatch}
    {last : DeviceSeq} (hlast : checkDeviceSeqs true (L.lastSeq device) batches = .ok last)
    (hadded : Appends device L.log batches added) :
    (L.append sha256 space device last added).Valid sha256 space := by
  obtain ⟨hrise, habove, heq⟩ := checkDeviceSeqs_ok hlast
  have hseqs : added.map (fun a => a.batch.deviceSeq) = batches.map AdmissionBatch.deviceSeq := by
    rw [← hadded.batches, map_map]
    rfl
  refine ⟨hadded.logged, ?_, fun d => ?_, fun d => ?_, fun d => ?_, hV.keyed,
    hV.below, hV.exclusive⟩
  · simp [Space.record, Space.append]
  · by_cases hd : d = device
    · simp [Space.checksum, Space.append, hd]
    · have hold := hV.checksum d
      simp only [Space.checksum, Space.append, Function.update_of_ne hd] at hold ⊢
      rw [hold, chain, chain, stream_append_other hd hadded.own]
  · by_cases hd : d = device
    · subst hd
      simp only [Space.lastSeq, Space.append, Function.update_self, Option.elim_some]
      rw [heq, ← hseqs, stream_append_own hadded.own, getLast?_append, hV.lastSeq,
        getLast?_map]
      cases added.getLast? <;> simp
    · have hold := hV.lastSeq d
      simp only [Space.lastSeq, Space.append, Function.update_of_ne hd] at hold ⊢
      rw [hold, stream_append_other hd hadded.own]
  · by_cases hd : d = device
    · subst hd
      change (stream d (L.log ++ added)).Pairwise _
      rw [stream_append_own hadded.own, pairwise_append]
      refine ⟨hV.deviceSeqs d, ?_, ?_⟩
      · rw [← hseqs] at hrise
        exact pairwise_map.mp hrise
      · intro a ha b hb
        have hle := deviceSeq_le_last (hV.deviceSeqs d) ha
        rw [← hV.lastSeq] at hle
        exact lt_of_le_of_lt hle (habove b.batch (hadded.batches ▸ mem_map_of_mem hb))
    · change (stream d (L.log ++ added)).Pairwise _
      rw [stream_append_other hd hadded.own]
      exact hV.deviceSeqs d

end Admit

end Homebase.Ledger
