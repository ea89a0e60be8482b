import Homebase.Core.Tag

set_option autoImplicit false

/-!
# Core: clocks, leases and the messages of the kernel verbs

`core/src/clock.rs`, `core/src/lease.rs` and `core/src/messages.rs`, as far as
the server and the client driver read them.

The cumulative device checksum is `sha2::Sha256` over a canonical preimage.  The
hash itself is a third-party crate and stays a parameter; the preimage is spelled
out byte for byte (`AdmissionBatch.preimage`).
-/

namespace Homebase.Core

open Foundation

/-! ## Time -/

/-- `std::time::Duration`, in nanoseconds. -/
structure Duration where
  nanos : Nat
  deriving DecidableEq

namespace Duration

/-- `Duration::as_millis`. -/
def asMillis (d : Duration) : Nat := d.nanos / 1000000

/-- `Duration::from_millis`. -/
def fromMillis (ms : U64) : Duration := ⟨ms.val * 1000000⟩

/-- `d.as_millis().min(u64::MAX as u128) as u64`. -/
def clampedMillis (d : Duration) : U64 :=
  ⟨min d.asMillis (2 ^ 64 - 1), by omega⟩

@[simp] theorem clampedMillis_fromMillis (ms : U64) : (fromMillis ms).clampedMillis = ms := by
  refine Fin.ext ?_
  have := ms.isLt
  simp only [clampedMillis, asMillis, fromMillis]
  omega

end Duration

/-- Milliseconds on a clock. -/
abbrev Timestamp : Type := U64

/-- `Timestamp::saturating_add`. -/
def Timestamp.saturatingAdd (t : Timestamp) (d : Duration) : Timestamp :=
  U64.saturatingAdd t d.clampedMillis

/-- A wall reading, a monotonic reading and the lineage of the latter. -/
structure HybridTimestamp where
  wall : Timestamp
  mono : Timestamp
  lineage : ByteArr 16
  deriving DecidableEq

/-- `HybridTimestamp::ZERO`. -/
def HybridTimestamp.zero : HybridTimestamp := ⟨0, 0, ByteArr.zero 16⟩

/-- `HybridTimestamp::expired`: in the same lineage either ruler decides, in another
one the wall with a margin. -/
def HybridTimestamp.expired (deadline now : HybridTimestamp) (margin : Duration) : Bool :=
  if deadline.lineage = now.lineage then
    decide (deadline.mono ≤ now.mono) || decide (deadline.wall ≤ now.wall)
  else decide (deadline.wall ≤ now.wall.saturatingAdd margin)

/-! ## Leases -/

/-- `LeaseMode`. -/
inductive LeaseMode where
  | read
  | write
  deriving DecidableEq

/-- `LeaseMode::compatible_with`. -/
def LeaseMode.compatibleWith : LeaseMode → LeaseMode → Bool
  | .read, .read => true
  | _, _ => false

theorem LeaseMode.compatibleWith_comm (a b : LeaseMode) :
    a.compatibleWith b = b.compatibleWith a := by
  cases a <;> cases b <;> rfl

theorem LeaseMode.compatibleWith_iff {a b : LeaseMode} :
    a.compatibleWith b = true ↔ a = .read ∧ b = .read := by
  cases a <;> cases b <;> simp [compatibleWith]

/-- `LeaseId`. -/
abbrev LeaseId : Type := U64

/-- A granted lease, as returned to the client. -/
structure Lease where
  id : LeaseId
  leasePrefix : Key
  mode : LeaseMode
  requestedAt : HybridTimestamp
  grantedAt : Timestamp
  ttl : Duration
  barrier : AdmissionSeq
  deriving DecidableEq

/-- One requested lease within a batch acquire. -/
structure LeaseSpec where
  leasePrefix : Key
  mode : LeaseMode
  ttl : Duration
  deriving DecidableEq

/-- `AcquireRequest`. -/
structure AcquireRequest where
  device : DeviceId
  requestedAt : HybridTimestamp
  specs : List LeaseSpec
  deriving DecidableEq

/-- `RenewRequest`. -/
structure RenewRequest where
  device : DeviceId
  requestedAt : HybridTimestamp
  leases : List LeaseId
  deriving DecidableEq

/-- `RenewGrant`. -/
structure RenewGrant where
  id : LeaseId
  grantedAt : Timestamp
  ttl : Duration
  contended : Bool
  deriving DecidableEq

/-- `RenewResponse`. -/
structure RenewResponse where
  granted : List RenewGrant
  invalid : List LeaseId
  deriving DecidableEq

/-- `ReleaseRequest`. -/
structure ReleaseRequest where
  device : DeviceId
  leases : List LeaseId
  deriving DecidableEq

/-- `ListLeasesRequest`. -/
structure ListLeasesRequest where
  device : DeviceId
  deriving DecidableEq

/-! ## Admission -/

/-- Inclusive upper bound on foreign-device admissions under a prefix. -/
structure RangeAssert where
  assertPrefix : Key
  upto : AdmissionSeq
  deriving DecidableEq

/-- `RangeAssertFailure`. -/
structure RangeAssertFailure where
  assertPrefix : Key
  upto : AdmissionSeq
  actual : AdmissionSeq
  deriving DecidableEq

/-- One device-sequenced unit within an atomic admission request. -/
structure AdmissionBatch where
  deviceSeq : DeviceSeq
  rangeAsserts : List RangeAssert
  entries : List SealedEntry
  deriving DecidableEq

/-- The bytes of an ASCII literal. -/
def ascii (s : String) : Bytes := s.toList.map fun c => Fin.ofNat 256 c.toNat

/-- `Range::encode`. -/
def Range.encode : Range → Bytes
  | .full => [0]
  | .prefixed p => 1 :: (toBE 4 (p.encode.length % 2 ^ 32) ++ p.encode)

namespace AdmissionBatch

/-- `hash_bytes`: a length and the bytes. -/
def hashBytes (bytes : Bytes) : Bytes := toBE 8 (bytes.length % 2 ^ 64) ++ bytes

/-- What the checksum absorbs of one range assertion. -/
def assertBytes (assertion : RangeAssert) : Bytes :=
  hashBytes assertion.assertPrefix.encode ++ toBE 8 assertion.upto.val

/-- What the checksum absorbs of one mutation. -/
def mutationBytes : Mutation OpaqueValue → Bytes
  | .set key value => 0 :: (hashBytes key.encode ++ hashBytes value.bytes)
  | .delete key => 1 :: hashBytes key.encode
  | .deleteRange range => 2 :: hashBytes range.encode

/-- What the checksum absorbs of one entry. -/
def entryBytes (entry : SealedEntry) : Bytes :=
  mutationBytes entry.mutation ++ (entry.tag.device.bytes ++ (toBE 8 entry.tag.deviceSeq.val ++
    (toBE 8 entry.tag.ver.val ++ (toBE 8 entry.tag.cipherEpoch.val ++
      hashBytes entry.sealing.encode))))

/-- Everything the hasher of `AdmissionBatch::checksum` absorbs, in order. -/
def preimage (batch : AdmissionBatch) (previous : DeviceChecksum) (space : SpaceId)
    (device : DeviceId) : Bytes :=
  ascii "homebase.device-checksum.v1\x00" ++ (previous.bytes ++ (space.bytes ++ (device.bytes ++
    (toBE 8 batch.deviceSeq.val ++ (toBE 8 (batch.rangeAsserts.length % 2 ^ 64) ++
      (batch.rangeAsserts.flatMap assertBytes ++ (toBE 8 (batch.entries.length % 2 ^ 64) ++
        batch.entries.flatMap entryBytes)))))))

/-- `AdmissionBatch::checksum`. -/
def checksum (sha256 : Bytes → ByteArr 32) (batch : AdmissionBatch)
    (previous : DeviceChecksum) (space : SpaceId) (device : DeviceId) : DeviceChecksum :=
  sha256 (batch.preimage previous space device)

end AdmissionBatch

/-- Atomic admission request. -/
structure AdmissionRequest where
  device : DeviceId
  expectedChecksum : DeviceChecksum
  evidence : List LeaseId
  batches : List AdmissionBatch
  deriving DecidableEq

/-! ## Errors -/

/-- Kernel-level rejections the server can produce. -/
inductive KernelError where
  | contended (conflict : Key) (retryAfter : Option Duration)
  | rangeContended (range : Range) (retryAfter : Option Duration)
  | invalidSeal (reason : String)
  | rangeAssertFailed (failures : List RangeAssertFailure)
  | verRegression (key : Key) (current attempted : Ver)
  | rangeVerRegression (range : Range) (current attempted : Ver)
  | deviceSeqRegression (current attempted : DeviceSeq)
  | deviceChecksumMismatch (currentSeq : DeviceSeq) (current : DeviceChecksum)
  | admissionCursorAhead (after highWater : AdmissionSeq)
  deriving DecidableEq

/-- The disposition of one batch of a request. -/
inductive AdmissionResult where
  | applied (admissionSeq : AdmissionSeq)
  | failed (error : KernelError)
  deriving DecidableEq

/-- `AdmissionResponse`. -/
structure AdmissionResponse where
  checksum : DeviceChecksum
  results : List AdmissionResult
  deriving DecidableEq

/-- `AdmissionResponse::applied_admission_seq`. -/
def AdmissionResponse.appliedAdmissionSeq (response : AdmissionResponse) (index : Nat) :
    Option AdmissionSeq :=
  match response.results[index]? with
  | some (.applied admissionSeq) => some admissionSeq
  | some (.failed _) => none
  | none => none

/-! ## Dense replay -/

/-- One durably admitted client batch in the server's exact space history. -/
structure AdmittedBatch where
  admissionSeq : AdmissionSeq
  device : DeviceId
  deviceSeq : DeviceSeq
  checksum : DeviceChecksum
  entries : List Entry
  deriving DecidableEq

/-- `PullRequest`. -/
structure PullRequest where
  after : AdmissionSeq
  maxBatches : Option Nat
  deriving DecidableEq

/-- `PullResponse`. -/
structure PullResponse where
  after : AdmissionSeq
  through : AdmissionSeq
  batches : List AdmittedBatch
  deriving DecidableEq

/-- A malformed supposedly dense server pull. -/
inductive PullDensityError where
  | cursorRegression (after through : AdmissionSeq)
  | batchCountMismatch (expected : U64) (actual : Nat)
  | batchSequenceMismatch (expected actual : AdmissionSeq)
  | entryAdmissionMismatch (batch entry : AdmissionSeq)
  | operationIndexMismatch (admissionSeq : AdmissionSeq) (expected actual : U32)
  | entryDeviceMismatch (admissionSeq : AdmissionSeq)
  | admissionSeqOverflow
  | operationCountOverflow
  deriving DecidableEq

namespace AdmittedBatch

/-- The loop of `AdmittedBatch::validate`, at position `index`. -/
def validateEntries (batch : AdmittedBatch) :
    Nat → List Entry → Except PullDensityError Unit
  | _, [] => .ok ()
  | index, entry :: rest =>
      match U32.tryFrom index with
      | none => .error .operationCountOverflow
      | some expectedIndex =>
          if entry.admission.admissionSeq ≠ batch.admissionSeq then
            .error (.entryAdmissionMismatch batch.admissionSeq entry.admission.admissionSeq)
          else if entry.admission.opIndex ≠ expectedIndex then
            .error (.operationIndexMismatch batch.admissionSeq expectedIndex
              entry.admission.opIndex)
          else if entry.deviceEntry.tag.device ≠ batch.device ∨
              entry.deviceEntry.tag.deviceSeq ≠ batch.deviceSeq then
            .error (.entryDeviceMismatch batch.admissionSeq)
          else batch.validateEntries (index + 1) rest

/-- `AdmittedBatch::validate`. -/
def validate (batch : AdmittedBatch) : Except PullDensityError Unit :=
  match U32.tryFrom batch.entries.length with
  | none => .error .operationCountOverflow
  | some _ => batch.validateEntries 0 batch.entries

end AdmittedBatch

namespace PullResponse

/-- The loop of `PullResponse::validate_dense`, at position `offset`. -/
def validateBatches (response : PullResponse) :
    Nat → List AdmittedBatch → Except PullDensityError Unit
  | _, [] => .ok ()
  | offset, batch :: rest =>
      match (U64.tryFrom offset).bind (U64.checkedAdd · 1) |>.bind response.after.checkedAdd with
      | none => .error .admissionSeqOverflow
      | some expected =>
          if batch.admissionSeq ≠ expected then
            .error (.batchSequenceMismatch expected batch.admissionSeq)
          else
            match batch.validate with
            | .error e => .error e
            | .ok () => response.validateBatches (offset + 1) rest

/-- `PullResponse::validate_dense`. -/
def validateDense (response : PullResponse) : Except PullDensityError Unit :=
  if response.through < response.after then
    .error (.cursorRegression response.after response.through)
  else
    let expectedLen := U64.saturatingSub response.through response.after
    if U64.tryFrom response.batches.length ≠ some expectedLen then
      .error (.batchCountMismatch expectedLen response.batches.length)
    else response.validateBatches 0 response.batches

end PullResponse

/-! ## Reads -/

/-- `GetRequest`. -/
structure GetRequest where
  keys : List Key
  deriving DecidableEq

/-- `GetResponse`. -/
structure GetResponse where
  entries : List (Option Entry)
  deriving DecidableEq

/-- `ListRequest`. -/
structure ListRequest where
  listPrefix : Key
  startAfter : Option Key
  limit : Option Nat
  deriving DecidableEq

/-- `ListResponse`. -/
structure ListResponse where
  entries : List Entry
  truncated : Bool
  deriving DecidableEq

/-- A range with the caller's cursor position. -/
structure RangeCursor where
  range : Range
  since : Option AdmissionSeq
  deriving DecidableEq

/-- `ReadAtRequest`. -/
structure ReadAtRequest where
  ranges : List RangeCursor
  deriving DecidableEq

/-- Per-range result of a consistent cut. -/
inductive RangeCut where
  | snapshot (entries : List Entry)
  | delta (entries : List Entry)
  deriving DecidableEq

/-- `ReadAtResponse`. -/
structure ReadAtResponse where
  at' : AdmissionSeq
  ranges : List RangeCut
  deriving DecidableEq

end Homebase.Core
