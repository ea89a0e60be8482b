import Homebase.Core.Range
import Homebase.Core.Reader

set_option autoImplicit false

/-!
# Core: device-authored and admitted entries (`core/src/tag.rs`, `core/src/seal.rs`)

A device entry is what a client authenticates; an admitted entry adds the
server's position of it.  `AdmissionOrder` is the lexicographic order of
`(admission_seq, op_index)`, the order in which a space's history is replayed.

Seals are opaque here except for two facts the kernel uses: the only scheme
allows no payload, and a seal without payload survives its storage encoding.
-/

namespace Homebase.Core

open Foundation

/-- `DeviceId`. -/
abbrev DeviceId : Type := ByteArr 16
/-- `SpaceId`. -/
abbrev SpaceId : Type := ByteArr 16
/-- `DeviceSeq`. -/
abbrev DeviceSeq : Type := U64
/-- `AdmissionSeq`. -/
abbrev AdmissionSeq : Type := U64
/-- `Ver`. -/
abbrev Ver : Type := U64
/-- `CipherEpoch`. -/
abbrev CipherEpoch : Type := U64
/-- `DeviceChecksum`. -/
abbrev DeviceChecksum : Type := ByteArr 32

/-- `DeviceChecksum::EMPTY`. -/
def DeviceChecksum.empty : DeviceChecksum := ByteArr.zero 32

/-- Stable order of one operation within a space's admission history. -/
structure AdmissionOrder where
  admissionSeq : AdmissionSeq
  opIndex : U32
  deriving DecidableEq

namespace AdmissionOrder

variable {a b : AdmissionOrder}

theorem ext (hseq : a.admissionSeq = b.admissionSeq) (hop : a.opIndex = b.opIndex) : a = b := by
  cases a; cases b; cases hseq; cases hop; rfl

instance : LinearOrder AdmissionOrder :=
  LinearOrder.lift' (fun o => toLex (o.admissionSeq, o.opIndex)) fun _ _ h =>
    AdmissionOrder.ext (congrArg (fun p => (ofLex p).1) h) (congrArg (fun p => (ofLex p).2) h)

theorem lt_iff :
    a < b ↔ a.admissionSeq < b.admissionSeq ∨
      (a.admissionSeq = b.admissionSeq ∧ a.opIndex < b.opIndex) :=
  Prod.Lex.lt_iff

/-- The epoch of an aggregate nothing was counted in. -/
def zero : AdmissionOrder := ⟨0, 0⟩

end AdmissionOrder

/-! ## Seals -/

/-- `SealScheme`. -/
inductive SealScheme where
  | aeadV1
  deriving DecidableEq

/-- `SealScheme::to_u8`. -/
def SealScheme.toU8 : SealScheme → U8
  | .aeadV1 => 0

/-- `SealScheme::from_u8`. -/
def SealScheme.fromU8 (value : U8) : Option SealScheme :=
  if value = 0 then some .aeadV1 else none

/-- Client-computed AEAD seal metadata. -/
structure Seal where
  scheme : SealScheme
  nonce : ByteArr 24
  aead : ByteArr 16
  payload : Bytes
  deriving DecidableEq

namespace Seal

/-- `Seal::empty_aead_v1`. -/
def emptyAeadV1 : Seal := ⟨.aeadV1, ByteArr.zero 24, ByteArr.zero 16, []⟩

/-- The text of `SealPayloadError::UnexpectedPayload`. -/
def unexpectedPayload (payloadLen : Nat) : String :=
  "seal scheme AeadV1 does not allow payload of " ++ toString payloadLen ++ " bytes"

/-- `Seal::validate_payload`, with the text of its error. -/
def validatePayload (value : Seal) : Except String Unit :=
  match value.scheme with
  | .aeadV1 =>
      if value.payload = [] then .ok () else .error (unexpectedPayload value.payload.length)

/-- `Seal::encode`. -/
def encode (value : Seal) : Bytes :=
  value.scheme.toU8 :: (value.nonce.bytes ++ (value.aead.bytes ++
    (toBE 4 (value.payload.length % 2 ^ 32) ++ value.payload)))

/-- `Seal::decode`; its callers keep only whether it succeeds. -/
def decode (bytes : Bytes) : Option Seal := do
  let (scheme, rest) ← Reader.u8 bytes
  let scheme ← SealScheme.fromU8 scheme
  let (nonce, rest) ← Reader.array 24 rest
  let (aead, rest) ← Reader.array 16 rest
  let (payloadLen, payload) ← Reader.u32 rest
  if payload.length = payloadLen.val then
    let value : Seal := ⟨scheme, nonce, aead, payload⟩
    match value.validatePayload with
    | .ok () => some value
    | .error _ => none
  else none

theorem validatePayload_eq_ok_iff (value : Seal) :
    value.validatePayload = .ok () ↔ value.payload = [] := by
  unfold validatePayload
  split
  split <;> simp_all

variable {value : Seal}

/-- A seal the kernel accepts survives its storage encoding. -/
theorem decode_encode (h : value.payload = []) : decode value.encode = some value := by
  obtain ⟨scheme, nonce, aead, payload⟩ := value
  cases h
  cases scheme
  have hlen : Reader.u32 (toBE 4 (([] : Bytes).length % 2 ^ 32) ++ []) = some (0, []) :=
    Reader.u32_append 0 []
  simp only [decode, encode, Reader.u8_cons, SealScheme.toU8, SealScheme.fromU8,
    Reader.array_append, hlen, Option.bind_eq_bind, Option.bind_some, if_true]
  rfl

/-- A seal without payload encodes to the fixed header and a zero length. -/
theorem length_encode (h : value.payload = []) : value.encode.length = 45 := by
  simp [encode, value.nonce.length_eq, value.aead.length_eq, h]

end Seal

/-! ## Entries -/

/-- Opaque bytes carried by an admitted Set mutation. -/
structure OpaqueValue where
  bytes : Bytes
  deriving DecidableEq

/-- A point or range mutation. -/
inductive Mutation (α : Type) where
  | set (key : Key) (value : α)
  | delete (key : Key)
  | deleteRange (range : Range)
  deriving DecidableEq

namespace Mutation

variable {α : Type}

/-- `Mutation::point_key`. -/
def pointKey : Mutation α → Option Key
  | set key _ => some key
  | delete key => some key
  | deleteRange _ => none

/-- `Mutation::range`. -/
def range : Mutation α → Option Range
  | deleteRange range => some range
  | set _ _ => none
  | delete _ => none

/-- `Mutation::is_set`. -/
def isSet : Mutation α → Bool
  | set _ _ => true
  | delete _ => false
  | deleteRange _ => false

/-- `Mutation::is_delete_range`. -/
def isDeleteRange : Mutation α → Bool
  | deleteRange _ => true
  | set _ _ => false
  | delete _ => false

end Mutation

/-- Every client-minted field authenticated as associated data. -/
structure DeviceTag where
  device : DeviceId
  deviceSeq : DeviceSeq
  ver : Ver
  cipherEpoch : CipherEpoch
  deriving DecidableEq

/-- One complete device-authenticated mutation. -/
structure DeviceEntry (α : Type) where
  mutation : Mutation α
  tag : DeviceTag
  /-- The field `seal` of the source; the word is reserved here. -/
  sealing : Seal
  deriving DecidableEq

/-- `DeviceEntry::ver`. -/
def DeviceEntry.ver {α : Type} (entry : DeviceEntry α) : Ver := entry.tag.ver

/-- Server-minted position of an entry. -/
structure AdmissionTag where
  admissionSeq : AdmissionSeq
  opIndex : U32
  deriving DecidableEq

/-- `AdmissionTag::order`. -/
def AdmissionTag.order (tag : AdmissionTag) : AdmissionOrder := ⟨tag.admissionSeq, tag.opIndex⟩

/-- An unchanged device entry plus authority metadata. -/
structure AdmittedEntry (α : Type) where
  deviceEntry : DeviceEntry α
  admission : AdmissionTag
  deriving DecidableEq

namespace AdmittedEntry

variable {α : Type}

/-- `AdmittedEntry::ver`. -/
def ver (entry : AdmittedEntry α) : Ver := entry.deviceEntry.ver

/-- The mutation of the wrapped device entry. -/
def mutation (entry : AdmittedEntry α) : Mutation α := entry.deviceEntry.mutation

/-- The author of the wrapped device entry. -/
def device (entry : AdmittedEntry α) : DeviceId := entry.deviceEntry.tag.device

/-- `entry.admission.order()`. -/
def order (entry : AdmittedEntry α) : AdmissionOrder := entry.admission.order

/-- The admission sequence of the entry. -/
def seq (entry : AdmittedEntry α) : AdmissionSeq := entry.admission.admissionSeq

theorem seq_le_of_order_lt {a b : AdmittedEntry α} (h : a.order < b.order) : a.seq ≤ b.seq := by
  rcases AdmissionOrder.lt_iff.mp h with hlt | ⟨heq, -⟩
  · exact hlt.le
  · exact heq.le

theorem seq_eq_order (entry : AdmittedEntry α) : entry.seq = entry.order.admissionSeq := rfl

end AdmittedEntry

/-- A device entry as the kernel sees it. -/
abbrev SealedEntry : Type := DeviceEntry OpaqueValue
/-- An admitted entry as the kernel stores it. -/
abbrev Entry : Type := AdmittedEntry OpaqueValue

end Homebase.Core
