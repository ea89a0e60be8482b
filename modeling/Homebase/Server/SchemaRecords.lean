import Homebase.Foundation.Agree
import Homebase.Server.SchemaKeys

set_option autoImplicit false

/-!
# Server: record values (`server/src/schema.rs`, codecs)

The fixed-layout records of a space with their encodings.  Two records exclude
values the source would panic on: a `DataRecord` holds a point mutation and a
`RangeDeleteRecord` a range mutation, as fields of the structures.

`HistoricalHeads` keeps the greatest admissions of two distinct devices.  What
it is for is said by three laws: `maxExcluding_observe`, `maxExcluding_merge` and
their versions for the overall maximum.  Neither evicting the second head nor
merging two summaries loses an answer to any "greatest admission of a device
other than `D`" query.
-/

namespace Homebase.Server

open Foundation Homebase.Core List

/-- What can go wrong in a verb: a rejection by the kernel, or a Rust panic with
its message.  The stores modelled here never fail. -/
inductive Failure where
  | kernel (error : KernelError)
  | panic (message : String)
  deriving DecidableEq

/-- `Option::expect`. -/
def expect {α : Type} (message : String) : Option α → Except Failure α
  | some a => .ok a
  | none => .error (.panic message)

variable {α : Type}

@[simp] theorem expect_some (message : String) (a : α) :
    expect message (some a) = .ok a := rfl

/-- `assert!`, and `assert_eq!` of values with decidable equality. -/
def ensure (condition : Prop) [Decidable condition] (message : String) : Except Failure Unit :=
  if condition then .ok () else .error (.panic message)

@[simp] theorem ensure_of {condition : Prop} [Decidable condition] (message : String)
    (h : condition) : ensure condition message = .ok () := if_pos h

/-! ## Historical heads -/

/-- One device's latest historical admission under a prefix. -/
structure DeviceAdmission where
  device : DeviceId
  admissionSeq : AdmissionSeq
  deriving DecidableEq

/-- `DeviceAdmission::EMPTY`. -/
def DeviceAdmission.empty : DeviceAdmission := ⟨ByteArr.zero 16, 0⟩

/-- Greatest historical admission points from two distinct devices. -/
structure HistoricalHeads where
  first : DeviceAdmission
  second : DeviceAdmission
  deriving DecidableEq

namespace HistoricalHeads

/-- `HistoricalHeads::empty`. -/
def empty : HistoricalHeads := ⟨DeviceAdmission.empty, DeviceAdmission.empty⟩

/-- `HistoricalHeads::max_admission_seq`. -/
def maxAdmissionSeq (heads : HistoricalHeads) : AdmissionSeq :=
  max heads.first.admissionSeq heads.second.admissionSeq

/-- `HistoricalHeads::max_excluding`. -/
def maxExcluding (heads : HistoricalHeads) (device : DeviceId) : AdmissionSeq :=
  if heads.first.device ≠ device then heads.first.admissionSeq else heads.second.admissionSeq

/-- The first part of `HistoricalHeads::observe`: which head takes the admission. -/
def place (heads : HistoricalHeads) (device : DeviceId) (admissionSeq : AdmissionSeq) :
    HistoricalHeads :=
  if heads.first.admissionSeq = 0 then ⟨⟨device, admissionSeq⟩, heads.second⟩
  else if heads.first.device = device then
    ⟨⟨heads.first.device, max heads.first.admissionSeq admissionSeq⟩, heads.second⟩
  else if heads.second.admissionSeq = 0 then ⟨heads.first, ⟨device, admissionSeq⟩⟩
  else if heads.second.device = device then
    ⟨heads.first, ⟨heads.second.device, max heads.second.admissionSeq admissionSeq⟩⟩
  else if admissionSeq > heads.second.admissionSeq then ⟨heads.first, ⟨device, admissionSeq⟩⟩
  else heads

/-- The last part of `HistoricalHeads::observe`: the greater head comes first. -/
def settle (heads : HistoricalHeads) : HistoricalHeads :=
  if heads.second.admissionSeq > heads.first.admissionSeq then ⟨heads.second, heads.first⟩
  else heads

/-- `HistoricalHeads::observe`. -/
def observe (heads : HistoricalHeads) (device : DeviceId) (admissionSeq : AdmissionSeq) :
    HistoricalHeads :=
  (heads.place device admissionSeq).settle

/-- One round of `HistoricalHeads::merge`. -/
def mergeHead (heads : HistoricalHeads) (head : DeviceAdmission) : HistoricalHeads :=
  if head.admissionSeq ≠ 0 then heads.observe head.device head.admissionSeq else heads

/-- `HistoricalHeads::merge`. -/
def merge (heads other : HistoricalHeads) : HistoricalHeads :=
  (heads.mergeHead other.first).mergeHead other.second

/-- The test of `HistoricalHeads::decode_from`. -/
def valid (heads : HistoricalHeads) : Bool :=
  let ordered := decide (heads.first.admissionSeq ≥ heads.second.admissionSeq)
  let distinct := decide (heads.second.admissionSeq = 0) ||
    decide (heads.first.device ≠ heads.second.device)
  let noSecondWithoutFirst := decide (heads.first.admissionSeq ≠ 0) ||
    decide (heads.second.admissionSeq = 0)
  ordered && distinct && noSecondWithoutFirst

/-- `HistoricalHeads::encode_into`. -/
def encode (heads : HistoricalHeads) : Bytes :=
  heads.first.device.bytes ++ (toBE 8 heads.first.admissionSeq.val ++
    (heads.second.device.bytes ++ toBE 8 heads.second.admissionSeq.val))

/-- `HistoricalHeads::decode_from`. -/
def decodeFrom (bytes : Bytes) : Option (HistoricalHeads × Bytes) := do
  let (firstDevice, rest) ← Reader.array 16 bytes
  let (firstSeq, rest) ← Reader.u64 rest
  let (secondDevice, rest) ← Reader.array 16 rest
  let (secondSeq, rest) ← Reader.u64 rest
  let heads : HistoricalHeads := ⟨⟨firstDevice, firstSeq⟩, ⟨secondDevice, secondSeq⟩⟩
  if heads.valid then some (heads, rest) else none

/-! ### The laws of the summary -/

theorem valid_iff (heads : HistoricalHeads) :
    heads.valid = true ↔
      heads.second.admissionSeq ≤ heads.first.admissionSeq ∧
      (heads.second.admissionSeq = 0 ∨ heads.first.device ≠ heads.second.device) := by
  have hzero : heads.second.admissionSeq ≤ heads.first.admissionSeq →
      heads.first.admissionSeq ≠ 0 ∨ heads.second.admissionSeq = 0 := by
    intro hle
    by_cases h : heads.first.admissionSeq = 0
    · exact Or.inr (Fin.le_zero_iff.mp (h ▸ hle))
    · exact Or.inl h
  simp only [valid, Bool.and_eq_true, Bool.or_eq_true, decide_eq_true_eq, ge_iff_le]
  tauto

@[simp] theorem valid_empty : empty.valid = true := by decide

@[simp] theorem maxExcluding_empty (device : DeviceId) : empty.maxExcluding device = 0 := by
  unfold maxExcluding
  split <;> rfl

@[simp] theorem maxAdmissionSeq_empty : empty.maxAdmissionSeq = 0 := by decide

variable {heads : HistoricalHeads}

theorem valid_observe (hv : heads.valid = true) (device : DeviceId) (seq : AdmissionSeq) :
    (heads.observe device seq).valid = true := by
  obtain ⟨⟨A, a⟩, ⟨B, b⟩⟩ := heads
  have ha : 0 ≤ a := Fin.zero_le a
  have hb : 0 ≤ b := Fin.zero_le b
  have hs : 0 ≤ seq := Fin.zero_le seq
  rw [valid_iff] at hv ⊢
  simp only [observe, place, settle] at *
  grind

/-- Observing an admission answers every exclusion query but the author's own. -/
theorem maxExcluding_observe (hv : heads.valid = true) (device : DeviceId) (seq : AdmissionSeq)
    (excluded : DeviceId) :
    (heads.observe device seq).maxExcluding excluded =
      if device = excluded then heads.maxExcluding excluded
      else max (heads.maxExcluding excluded) seq := by
  obtain ⟨⟨A, a⟩, ⟨B, b⟩⟩ := heads
  have ha : 0 ≤ a := Fin.zero_le a
  have hb : 0 ≤ b := Fin.zero_le b
  have hs : 0 ≤ seq := Fin.zero_le seq
  rw [valid_iff] at hv
  simp only [observe, place, settle, maxExcluding] at *
  grind

theorem maxAdmissionSeq_observe (hv : heads.valid = true) (device : DeviceId) (seq : AdmissionSeq) :
    (heads.observe device seq).maxAdmissionSeq = max heads.maxAdmissionSeq seq := by
  obtain ⟨⟨A, a⟩, ⟨B, b⟩⟩ := heads
  have ha : 0 ≤ a := Fin.zero_le a
  have hb : 0 ≤ b := Fin.zero_le b
  have hs : 0 ≤ seq := Fin.zero_le seq
  rw [valid_iff] at hv
  simp only [observe, place, settle, maxAdmissionSeq] at *
  grind

/-- The newest admission of all takes the first head. -/
theorem first_observe {device : DeviceId} {seq : AdmissionSeq} (hv : heads.valid = true)
    (hpos : seq ≠ 0) (hle : heads.maxAdmissionSeq ≤ seq) (hlt : heads.maxExcluding device < seq) :
    (heads.observe device seq).first = ⟨device, seq⟩ := by
  obtain ⟨⟨A, a⟩, ⟨B, b⟩⟩ := heads
  have ha : 0 ≤ a := Fin.zero_le a
  have hb : 0 ≤ b := Fin.zero_le b
  rw [valid_iff] at hv
  simp only [observe, place, settle, maxAdmissionSeq, maxExcluding] at *
  grind

theorem valid_mergeHead (hv : heads.valid = true) (head : DeviceAdmission) :
    (heads.mergeHead head).valid = true := by
  unfold mergeHead
  split
  · exact valid_observe hv _ _
  · exact hv

theorem valid_merge (hv : heads.valid = true) (other : HistoricalHeads) :
    (heads.merge other).valid = true :=
  valid_mergeHead (valid_mergeHead hv _) _

theorem maxExcluding_mergeHead (hv : heads.valid = true) (head : DeviceAdmission)
    (excluded : DeviceId) :
    (heads.mergeHead head).maxExcluding excluded =
      if head.device = excluded then heads.maxExcluding excluded
      else max (heads.maxExcluding excluded) head.admissionSeq := by
  unfold mergeHead
  split
  · exact maxExcluding_observe hv _ _ _
  · rename_i h
    have hz : head.admissionSeq = 0 := not_not.mp h
    have : max (heads.maxExcluding excluded) 0 = heads.maxExcluding excluded :=
      max_eq_left (Fin.zero_le _)
    rw [hz, this, ite_self]

/-- A merged summary answers with the greater of both answers. -/
theorem maxExcluding_merge {heads other : HistoricalHeads} (hv : heads.valid = true)
    (ho : other.valid = true) (excluded : DeviceId) :
    (heads.merge other).maxExcluding excluded =
      max (heads.maxExcluding excluded) (other.maxExcluding excluded) := by
  rw [merge, maxExcluding_mergeHead (valid_mergeHead hv _), maxExcluding_mergeHead hv]
  generalize heads.maxExcluding excluded = m
  obtain ⟨⟨A, a⟩, ⟨B, b⟩⟩ := other
  have hm : 0 ≤ m := Fin.zero_le m
  have hb : 0 ≤ b := Fin.zero_le b
  rw [valid_iff] at ho
  simp only [maxExcluding] at *
  grind

theorem maxAdmissionSeq_mergeHead (hv : heads.valid = true) (head : DeviceAdmission) :
    (heads.mergeHead head).maxAdmissionSeq = max heads.maxAdmissionSeq head.admissionSeq := by
  unfold mergeHead
  split
  · exact maxAdmissionSeq_observe hv _ _
  · rename_i h
    rw [not_not.mp h]
    exact (max_eq_left (Fin.zero_le _)).symm

theorem maxAdmissionSeq_merge (hv : heads.valid = true) (other : HistoricalHeads) :
    (heads.merge other).maxAdmissionSeq = max heads.maxAdmissionSeq other.maxAdmissionSeq := by
  rw [merge, maxAdmissionSeq_mergeHead (valid_mergeHead hv _), maxAdmissionSeq_mergeHead hv,
    max_assoc]
  rfl

theorem decodeFrom_encode (hv : heads.valid = true) (rest : Bytes) :
    decodeFrom (heads.encode ++ rest) = some (heads, rest) := by
  obtain ⟨⟨A, a⟩, ⟨B, b⟩⟩ := heads
  simp only [decodeFrom, encode, append_assoc, Reader.array_append, Reader.u64_append,
    Option.bind_eq_bind, Option.bind_some, hv, if_true]

end HistoricalHeads

/-! ## Admission headers -/

/-- Durable identity and completeness check for one admitted client batch. -/
structure AdmissionHeaderRecord where
  device : DeviceId
  deviceSeq : DeviceSeq
  checksum : DeviceChecksum
  operationCount : U32
  deriving DecidableEq

namespace AdmissionHeaderRecord

/-- `AdmissionHeaderRecord::encode`; the version is 1. -/
def encode (record : AdmissionHeaderRecord) : Bytes :=
  1 :: (record.device.bytes ++ (toBE 8 record.deviceSeq.val ++
    (record.checksum.bytes ++ toBE 4 record.operationCount.val)))

/-- `AdmissionHeaderRecord::decode`. -/
def decode (bytes : Bytes) : Option AdmissionHeaderRecord := do
  let (version, rest) ← Reader.u8 bytes
  if version ≠ 1 then none
  else
    let (device, rest) ← Reader.array 16 rest
    let (deviceSeq, rest) ← Reader.u64 rest
    let (checksum, rest) ← Reader.array 32 rest
    let (operationCount, rest) ← Reader.u32 rest
    if rest = [] then some ⟨device, deviceSeq, checksum, operationCount⟩ else none

@[simp] theorem decode_encode (record : AdmissionHeaderRecord) :
    decode record.encode = some record := by
  have hcount : Reader.u32 (toBE 4 record.operationCount.val) =
      some (record.operationCount, []) := by
    simpa using Reader.u32_append record.operationCount []
  unfold decode encode
  simp only [↓Reader.u8_bind, ↓Reader.u64_bind, ↓Reader.array_bind, hcount, ne_eq,
    not_true_eq_false, if_false]
  rfl

end AdmissionHeaderRecord

/-! ## Leases -/

/-- The full server-side state of one lease grant. -/
structure LeaseRecord where
  id : LeaseId
  leasePrefix : Key
  mode : LeaseMode
  device : DeviceId
  requestedAt : HybridTimestamp
  grantedAt : Timestamp
  barrier : AdmissionSeq
  deadline : Timestamp
  ttl : Duration
  deriving DecidableEq

namespace LeaseRecord

/-- `LeaseRecord::is_live`. -/
def isLive (record : LeaseRecord) (now : Timestamp) : Bool := decide (now < record.deadline)

/-- The byte of a mode. -/
def modeByte : LeaseMode → U8
  | .read => 0
  | .write => 1

/-- The mode of a byte. -/
def parseMode (b : U8) : Option LeaseMode :=
  if b = 0 then some .read else if b = 1 then some .write else none

/-- `LeaseRecord::encode`; the version is 2. -/
def encode (record : LeaseRecord) : Bytes :=
  2 :: (toBE 8 record.id.val ++ (modeByte record.mode :: (record.device.bytes ++
    (toBE 8 record.requestedAt.wall.val ++ (toBE 8 record.requestedAt.mono.val ++
      (record.requestedAt.lineage.bytes ++ (toBE 8 record.grantedAt.val ++
        (toBE 8 record.barrier.val ++ (toBE 8 record.deadline.val ++
          (toBE 8 record.ttl.clampedMillis.val ++ record.leasePrefix.encode))))))))))

/-- `LeaseRecord::decode`. -/
def decode (bytes : Bytes) : Option LeaseRecord := do
  let (version, rest) ← Reader.u8 bytes
  if version ≠ 2 then none
  else
    let (id, rest) ← Reader.u64 rest
    let (mode, rest) ← Reader.u8 rest
    let mode ← parseMode mode
    let (device, rest) ← Reader.array 16 rest
    let (wall, rest) ← Reader.u64 rest
    let (mono, rest) ← Reader.u64 rest
    let (lineage, rest) ← Reader.array 16 rest
    let (grantedAt, rest) ← Reader.u64 rest
    let (barrier, rest) ← Reader.u64 rest
    let (deadline, rest) ← Reader.u64 rest
    let (ttl, rest) ← Reader.u64 rest
    let leasePrefix ← (Key.decode rest).toOption
    some ⟨id, leasePrefix, mode, device, ⟨wall, mono, lineage⟩, grantedAt, barrier, deadline,
      Duration.fromMillis ttl⟩

/-- What a stored record reads back as: a TTL is kept in whole milliseconds. -/
@[simps id leasePrefix mode device barrier]
def normalize (record : LeaseRecord) : LeaseRecord :=
  { record with ttl := Duration.fromMillis record.ttl.clampedMillis }

@[simp] theorem parseMode_modeByte (mode : LeaseMode) : parseMode (modeByte mode) = some mode := by
  cases mode <;> rfl

@[simp] theorem decode_encode (record : LeaseRecord) :
    decode record.encode = some record.normalize := by
  unfold decode encode
  simp only [↓Reader.u8_bind, ↓Reader.u64_bind, ↓Reader.array_bind, parseMode_modeByte,
    Key.decode_encode, Except.toOption, ne_eq, not_true_eq_false, if_false]
  rfl

@[simp] theorem normalize_normalize (record : LeaseRecord) :
    record.normalize.normalize = record.normalize := by
  simp [normalize]

@[simp] theorem encode_normalize (record : LeaseRecord) :
    record.normalize.encode = record.encode := by
  simp [encode, normalize]

end LeaseRecord

/-! ## Counters and devices -/

/-- Per-space counters. -/
structure CountersRecord where
  nextLeaseId : U64
  admissionHighWater : U64
  deriving DecidableEq

namespace CountersRecord

/-- `CountersRecord::default`. -/
def default : CountersRecord := ⟨0, 0⟩

/-- `CountersRecord::encode`; the version is 1. -/
def encode (record : CountersRecord) : Bytes :=
  1 :: (toBE 8 record.nextLeaseId.val ++ toBE 8 record.admissionHighWater.val)

/-- `CountersRecord::decode`. -/
def decode (bytes : Bytes) : Option CountersRecord := do
  let (version, rest) ← Reader.u8 bytes
  if version ≠ 1 then none
  else
    let (nextLeaseId, rest) ← Reader.u64 rest
    let (admissionHighWater, _) ← Reader.u64 rest
    some ⟨nextLeaseId, admissionHighWater⟩

@[simp] theorem decode_encode (record : CountersRecord) : decode record.encode = some record := by
  have hlast : Reader.u64 (toBE 8 record.admissionHighWater.val) =
      some (record.admissionHighWater, []) := by
    simpa using Reader.u64_append record.admissionHighWater []
  unfold decode encode
  simp only [↓Reader.u8_bind, ↓Reader.u64_bind, hlast, ne_eq, not_true_eq_false, if_false]
  rfl

end CountersRecord

/-- Per-device admission state. -/
structure DeviceRecord where
  lastSeq : DeviceSeq
  checksum : DeviceChecksum
  deriving DecidableEq

namespace DeviceRecord

/-- `DeviceRecord::encode`; the version is 1. -/
def encode (record : DeviceRecord) : Bytes :=
  1 :: (toBE 8 record.lastSeq.val ++ record.checksum.bytes)

/-- `DeviceRecord::decode`. -/
def decode (bytes : Bytes) : Option DeviceRecord := do
  let (version, rest) ← Reader.u8 bytes
  if version ≠ 1 then none
  else
    let (lastSeq, rest) ← Reader.u64 rest
    let (checksum, _) ← Reader.array 32 rest
    some ⟨lastSeq, checksum⟩

@[simp] theorem decode_encode (record : DeviceRecord) : decode record.encode = some record := by
  have hlast : Reader.array 32 record.checksum.bytes = some (record.checksum, []) := by
    simpa using Reader.array_append record.checksum []
  unfold decode encode
  simp only [↓Reader.u8_bind, ↓Reader.u64_bind, hlast, ne_eq, not_true_eq_false, if_false]
  rfl

end DeviceRecord

/-! ## Point and range records -/

/-- The tags both entry codecs write first. -/
def encodeTags (entry : Entry) : Bytes :=
  entry.deviceEntry.tag.device.bytes ++ (toBE 8 entry.deviceEntry.tag.deviceSeq.val ++
    (toBE 8 entry.deviceEntry.tag.ver.val ++ (toBE 8 entry.deviceEntry.tag.cipherEpoch.val ++
      (toBE 8 entry.admission.admissionSeq.val ++ toBE 4 entry.admission.opIndex.val))))

/-- The tags both entry codecs read first. -/
def decodeTags (bytes : Bytes) : Option ((DeviceTag × AdmissionTag) × Bytes) := do
  let (device, rest) ← Reader.array 16 bytes
  let (deviceSeq, rest) ← Reader.u64 rest
  let (ver, rest) ← Reader.u64 rest
  let (cipherEpoch, rest) ← Reader.u64 rest
  let (admissionSeq, rest) ← Reader.u64 rest
  let (opIndex, rest) ← Reader.u32 rest
  some ((⟨device, deviceSeq, ver, cipherEpoch⟩, ⟨admissionSeq, opIndex⟩), rest)

theorem decodeTags_bind (entry : Entry) (rest : Bytes)
    (f : (DeviceTag × AdmissionTag) × Bytes → Option α) :
    (decodeTags (encodeTags entry ++ rest) >>= f) =
      f ((entry.deviceEntry.tag, entry.admission), rest) := by
  unfold decodeTags encodeTags
  simp only [append_assoc, ↓Reader.array_bind, ↓Reader.u64_bind, ↓Reader.u32_bind]
  rfl

/-- The seal as both entry codecs write it: its length and its bytes. -/
def encodeSeal (value : Seal) : Bytes := toBE 4 (value.encode.length % 2 ^ 32) ++ value.encode

/-- The seal as both entry codecs read it. -/
def decodeSeal (bytes : Bytes) : Option (Seal × Bytes) := do
  let (sealLen, rest) ← Reader.u32 bytes
  let (sealBytes, rest) ← Reader.take sealLen.val rest
  let value ← Seal.decode sealBytes
  some (value, rest)

theorem decodeSeal_bind {value : Seal} (h : value.payload = []) (rest : Bytes)
    (f : Seal × Bytes → Option α) : (decodeSeal (encodeSeal value ++ rest) >>= f) =
      f (value, rest) := by
  have hlen := Seal.length_encode h
  have hword : toBE 4 (value.encode.length % 2 ^ 32) = toBE 4 (U32.ofNat 45).val := by
    rw [hlen]; rfl
  unfold decodeSeal encodeSeal
  rw [hword, append_assoc]
  simp only [↓Reader.u32_bind]
  rw [Reader.take_bind (by rw [hlen]; rfl)]
  simp only [Seal.decode_encode h]
  rfl

/-- One stored key's tag and value; never a range mutation. -/
structure DataRecord where
  entry : Entry
  isPoint : entry.mutation.isDeleteRange = false
  deriving DecidableEq

namespace DataRecord

theorem ext {a b : DataRecord} (h : a.entry = b.entry) : a = b := by
  cases a; cases b; cases h; rfl

/-- `AdmittedEntry::key` of the stored entry. -/
def key (record : DataRecord) : Key :=
  match record.entry.mutation, record.isPoint with
  | .set key _, _ => key
  | .delete key, _ => key

theorem pointKey_eq (record : DataRecord) :
    record.entry.mutation.pointKey = some record.key := by
  obtain ⟨⟨⟨mutation, tag, sealing⟩, admission⟩, hpoint⟩ := record
  cases mutation with
  | set key value => rfl
  | delete key => rfl
  | deleteRange range => cases hpoint

/-- `DataRecord::encode`; the version is 1. -/
def encode (record : DataRecord) : Bytes :=
  1 :: (encodeTags record.entry ++ (encodeSeal record.entry.deviceEntry.sealing ++
    match record.entry.mutation, record.isPoint with
    | .delete _, _ => [0]
    | .set _ value, _ => 1 :: value.bytes))

/-- `DataRecord::decode`. -/
def decode (key : Key) (bytes : Bytes) : Option DataRecord := do
  let (version, rest) ← Reader.u8 bytes
  if version ≠ 1 then none
  else
    let ((tag, admission), rest) ← decodeTags rest
    let (sealing, rest) ← decodeSeal rest
    let (live, rest) ← Reader.u8 rest
    if live = 0 then some ⟨⟨⟨.delete key, tag, sealing⟩, admission⟩, rfl⟩
    else if live = 1 then some ⟨⟨⟨.set key ⟨rest⟩, tag, sealing⟩, admission⟩, rfl⟩
    else none

/-- A record whose seal the kernel accepted reads back under its own key. -/
theorem decode_encode {record : DataRecord} (h : record.entry.deviceEntry.sealing.payload = []) :
    decode record.key record.encode = some record := by
  unfold decode encode
  simp only [↓Reader.u8_bind, ↓decodeTags_bind, ↓decodeSeal_bind h, ne_eq, not_true_eq_false,
    if_false]
  obtain ⟨⟨⟨mutation, tag, sealing⟩, admission⟩, hpoint⟩ := record
  cases mutation with
  | set key value => rfl
  | delete key => rfl
  | deleteRange range => cases hpoint

end DataRecord

/-- Latest materialized tombstone at one exact Full/Prefix target. -/
structure RangeDeleteRecord where
  entry : Entry
  history : HistoricalHeads
  maxVer : Ver
  isRange : entry.mutation.isDeleteRange = true
  deriving DecidableEq

namespace RangeDeleteRecord

/-- `RangeDeleteRecord::new`. -/
def new (entry : Entry) (h : entry.mutation.isDeleteRange = true) : RangeDeleteRecord :=
  ⟨entry, HistoricalHeads.empty.observe entry.device entry.seq, entry.ver, h⟩

/-- What `RangeDeleteRecord::observe` does after its assertion. -/
def absorb (record : RangeDeleteRecord) (entry : Entry)
    (h : entry.mutation.isDeleteRange = true) : RangeDeleteRecord where
  entry := if entry.order > record.entry.order then entry else record.entry
  history := record.history.observe entry.device entry.seq
  maxVer := max record.maxVer entry.ver
  isRange := by
    split
    · exact h
    · exact record.isRange

theorem isDeleteRange_of_range_eq {a b : Entry} (ha : a.mutation.isDeleteRange = true)
    (h : a.mutation.range = b.mutation.range) : b.mutation.isDeleteRange = true := by
  cases hma : a.mutation <;> cases hmb : b.mutation <;>
    simp_all [Mutation.range, Mutation.isDeleteRange]

/-- `RangeDeleteRecord::observe`. -/
def observe (record : RangeDeleteRecord) (entry : Entry) : Except Failure RangeDeleteRecord :=
  if h : record.entry.mutation.range = entry.mutation.range then
    .ok (record.absorb entry (isDeleteRange_of_range_eq record.isRange h))
  else .error (.panic "range history target changed")

/-- `RangeDeleteRecord::encode`; the version is 1. -/
def encode (record : RangeDeleteRecord) : Bytes :=
  1 :: (encodeTags record.entry ++ (record.history.encode ++ (toBE 8 record.maxVer.val ++
    encodeSeal record.entry.deviceEntry.sealing)))

/-- The consistency test of `RangeDeleteRecord::decode`. -/
def consistent (device : DeviceId) (admissionSeq : AdmissionSeq) (ver : Ver)
    (history : HistoricalHeads) (maxVer : Ver) : Bool :=
  [history.first, history.second].any
      (fun head => decide (head.device = device) && decide (head.admissionSeq = admissionSeq)) &&
    decide (history.maxAdmissionSeq = admissionSeq) && decide (ver ≤ maxVer)

/-- `RangeDeleteRecord::decode`. -/
def decode (range : Range) (bytes : Bytes) : Option RangeDeleteRecord := do
  let (version, rest) ← Reader.u8 bytes
  if version ≠ 1 then none
  else
    let ((tag, admission), rest) ← decodeTags rest
    let (history, rest) ← HistoricalHeads.decodeFrom rest
    let (maxVer, rest) ← Reader.u64 rest
    let (sealing, rest) ← decodeSeal rest
    if rest ≠ [] then none
    else if consistent tag.device admission.admissionSeq tag.ver history maxVer then
      some ⟨⟨⟨.deleteRange range, tag, sealing⟩, admission⟩, history, maxVer, rfl⟩
    else none

/-- The newest event of the target leads the record's history, and its version
is below the recorded floor. -/
structure Coherent (record : RangeDeleteRecord) : Prop where
  valid : record.history.valid = true
  first_eq : record.history.first = ⟨record.entry.device, record.entry.seq⟩
  ver_le : record.entry.ver ≤ record.maxVer

variable {record : RangeDeleteRecord}

theorem Coherent.maxAdmissionSeq (h : record.Coherent) :
    record.history.maxAdmissionSeq = record.entry.seq := by
  have hle := ((HistoricalHeads.valid_iff _).mp h.valid).1
  rw [HistoricalHeads.maxAdmissionSeq, max_eq_left hle, h.first_eq]

theorem decode_encode {range : Range} (h : record.Coherent)
    (hseal : record.entry.deviceEntry.sealing.payload = [])
    (hrange : record.entry.mutation = .deleteRange range) :
    decode range record.encode = some record := by
  have hheads := HistoricalHeads.decodeFrom_encode h.valid
  have hconsistent : consistent record.entry.deviceEntry.tag.device
      record.entry.admission.admissionSeq record.entry.deviceEntry.tag.ver record.history
      record.maxVer = true := by
    have hmax := h.maxAdmissionSeq
    have hver := h.ver_le
    simp only [consistent, any_cons, h.first_eq, AdmittedEntry.device, decide_true,
      Bool.true_and, Bool.and_eq_true, decide_eq_true_eq, Bool.or_eq_true]
    exact ⟨⟨Or.inl rfl, hmax⟩, hver⟩
  have hlast : (decodeSeal (encodeSeal record.entry.deviceEntry.sealing)) =
      some (record.entry.deviceEntry.sealing, []) := by
    simpa using decodeSeal_bind hseal [] some
  unfold decode encode
  simp only [↓Reader.u8_bind, ↓decodeTags_bind, ne_eq, not_true_eq_false, if_false, hheads]
  simp only [Option.bind_eq_bind, Option.bind_some, Reader.u64_append, hlast, hconsistent,
    not_true_eq_false, if_false, if_true]
  obtain ⟨⟨⟨mutation, tag, sealing⟩, admission⟩, history, maxVer, hr⟩ := record
  cases hrange
  rfl

end RangeDeleteRecord

/-! ## Aggregates -/

/-- Write-time aggregates for one `(depth, prefix)`. -/
structure PrefixMetaRecord where
  history : HistoricalHeads
  maxVer : Ver
  liveCount : U64
  countEpoch : AdmissionOrder
  deriving DecidableEq

namespace PrefixMetaRecord

/-- `PrefixMetaRecord::empty`. -/
def empty : PrefixMetaRecord := ⟨HistoricalHeads.empty, 0, 0, AdmissionOrder.zero⟩

/-- `PrefixMetaRecord::observe_history`. -/
def observeHistory (record : PrefixMetaRecord) (device : DeviceId) (admissionSeq : AdmissionSeq)
    (ver : Ver) : PrefixMetaRecord :=
  { record with
    history := record.history.observe device admissionSeq
    maxVer := max record.maxVer ver }

/-- `PrefixMetaRecord::materialize_count_at`. -/
def materializeCountAt (record : PrefixMetaRecord) (countEpoch : AdmissionOrder) :
    PrefixMetaRecord :=
  { record with countEpoch := max record.countEpoch countEpoch }

/-- `PrefixMetaRecord::encode`; the version is 1. -/
def encode (record : PrefixMetaRecord) : Bytes :=
  1 :: (record.history.encode ++ (toBE 8 record.maxVer.val ++ (toBE 8 record.liveCount.val ++
    (toBE 8 record.countEpoch.admissionSeq.val ++ toBE 4 record.countEpoch.opIndex.val))))

/-- `PrefixMetaRecord::decode`. -/
def decode (bytes : Bytes) : Option PrefixMetaRecord := do
  let (version, rest) ← Reader.u8 bytes
  if version ≠ 1 then none
  else
    let (history, rest) ← HistoricalHeads.decodeFrom rest
    let (maxVer, rest) ← Reader.u64 rest
    let (liveCount, rest) ← Reader.u64 rest
    let (admissionSeq, rest) ← Reader.u64 rest
    let (opIndex, rest) ← Reader.u32 rest
    if rest = [] then some ⟨history, maxVer, liveCount, ⟨admissionSeq, opIndex⟩⟩ else none

theorem decode_encode {record : PrefixMetaRecord} (hv : record.history.valid = true) :
    decode record.encode = some record := by
  have hheads := HistoricalHeads.decodeFrom_encode hv
  have hlast : Reader.u32 (toBE 4 record.countEpoch.opIndex.val) =
      some (record.countEpoch.opIndex, []) := by
    simpa using Reader.u32_append record.countEpoch.opIndex []
  unfold decode encode
  simp only [↓Reader.u8_bind, ne_eq, not_true_eq_false, if_false, hheads]
  simp only [Option.bind_eq_bind, Option.bind_some, Reader.u64_append, hlast, if_true]

end PrefixMetaRecord

end Homebase.Server
