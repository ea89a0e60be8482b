import Homebase.Core.Messages
import Homebase.Foundation.Agree

set_option autoImplicit false

/-!
# Client: names and values under a cipher (`client/src/cipher.rs`)

A name is encoded component by component, each under a key that depends on the
components before it.  A mutation is sealed under the tag it is stamped with; its
target and its tag stay in the clear.

HMAC, HKDF and the AEAD are third-party crates and stay parameters (`Crypto`).
-/

namespace Homebase.Client

open Foundation Homebase.Core

/-- The primitives of the `hmac`, `hkdf` and `chacha20poly1305` crates. -/
structure Crypto where
  /-- HMAC-SHA256 of a message under a key. -/
  hmac : ByteArr 32 → Bytes → ByteArr 32
  /-- HKDF-SHA256: salt, input key material and info. -/
  hkdf : ByteArr 32 → Bytes → Bytes → ByteArr 32
  /-- XChaCha20-Poly1305 with a detached tag: key, nonce, associated data, plaintext. -/
  encrypt : ByteArr 32 → ByteArr 24 → Bytes → Bytes → Option (ByteArr 16 × Bytes)
  /-- Its inverse, with the tag last. -/
  decrypt : ByteArr 32 → ByteArr 24 → Bytes → Bytes → ByteArr 16 → Option Bytes

/-- `CipherError`, as far as opening and sealing entries reports it. -/
inductive CipherError where
  | missingSpaceKey (epoch : U64)
  | invalidKey (error : KeyError)
  | malformedSealedValue
  | decryptFailed
  deriving DecidableEq

/-- `ValueNonce`. -/
abbrev ValueNonce : Type := ByteArr 24

/-- `CipherMode`. -/
inductive CipherMode where
  | plaintext
  | encrypted (nameKey : ByteArr 32) (spaceKeys : OrdMap U64 (ByteArr 32))

/-- `V1_CIPHER_EPOCH`. -/
def v1CipherEpoch : U64 := 0
/-- `SET_FRAME_V1`. -/
def setFrameV1 : U8 := 1
/-- `SET_OP_KIND`. -/
def setOpKind : U8 := 1
/-- `DELETE_OP_KIND`. -/
def deleteOpKind : U8 := 2
/-- `DELETE_RANGE_OP_KIND`. -/
def deleteRangeOpKind : U8 := 3

/-- A failed key validation, as the cipher reports it. -/
def orInvalidKey {α : Type} : Except KeyError α → Except CipherError α
  | .ok a => .ok a
  | .error e => .error (.invalidKey e)

section Names

variable (crypto : Crypto)

/-- `component_pseudonym`. -/
def componentPseudonym (pathKey : ByteArr 32) (component : Bytes) : ByteArr 32 :=
  crypto.hmac pathKey (ascii "homebase:name-component:v1" ++
    (toBE 4 (component.length % 2 ^ 32) ++ component))

/-- `child_name_key`. -/
def childNameKey (pathKey : ByteArr 32) (component : Bytes) : ByteArr 32 :=
  crypto.hkdf pathKey component (ascii "homebase:name-child:v1")

/-- The loop of `encode_name_key`. -/
def encodeNameComponents :
    ByteArr 32 → List KeyComponent → Except CipherError (List KeyComponent)
  | _, [] => .ok []
  | pathKey, component :: rest => do
      let pseudonym ← orInvalidKey
        (KeyComponent.new (componentPseudonym crypto pathKey component.bytes).bytes)
      let out ← encodeNameComponents (childNameKey crypto pathKey component.bytes) rest
      .ok (pseudonym :: out)

/-- `encode_name_key`. -/
def encodeNameKey (nameKey : ByteArr 32) (key : Key) : Except CipherError Key := do
  let out ← encodeNameComponents crypto nameKey key.components
  orInvalidKey (Key.new out)

/-- `SpaceCipher::encode_key`. -/
def CipherMode.encodeKey (mode : CipherMode) (key : Key) : Except CipherError Key :=
  match mode with
  | .plaintext => .ok key
  | .encrypted nameKey _ => encodeNameKey crypto nameKey key

/-- `SpaceCipher::encode_range`. -/
def CipherMode.encodeRange (mode : CipherMode) : Range → Except CipherError Range
  | .full => .ok .full
  | .prefixed p => (mode.encodeKey crypto p).map Range.prefixed

end Names

section Values

variable (crypto : Crypto)

/-- `seal_aad`. -/
def sealAad (encodedTarget : Bytes) (scheme : SealScheme) (opKind : U8) (context : DeviceTag) :
    Bytes :=
  ascii "homebase:seal-aad:v1" ++ (scheme.toU8 :: opKind ::
    (toBE 8 context.cipherEpoch.val ++ (context.device.bytes ++
      (toBE 8 context.deviceSeq.val ++ (toBE 8 context.ver.val ++
        (toBE 4 (encodedTarget.length % 2 ^ 32) ++ encodedTarget))))))

/-- `seal_detached`. -/
def CipherMode.sealDetached (mode : CipherMode) (encodedTarget : Bytes) (opKind : U8)
    (plaintext : Bytes) (context : DeviceTag) (nonce : ValueNonce) :
    Except CipherError (Seal × Bytes) :=
  match mode with
  | .plaintext => .ok (Seal.emptyAeadV1, plaintext)
  | .encrypted _ spaceKeys =>
      match spaceKeys.get context.cipherEpoch with
      | none => .error (.missingSpaceKey context.cipherEpoch)
      | some key =>
          match crypto.encrypt key nonce (sealAad encodedTarget .aeadV1 opKind context)
              plaintext with
          | none => .error .decryptFailed
          | some (tag, ciphertext) => .ok (⟨.aeadV1, nonce, tag, []⟩, ciphertext)

/-- `open_detached`. -/
def CipherMode.openDetached (mode : CipherMode) (encodedTarget : Bytes) (opKind : U8)
    (ciphertext : Bytes) (sealing : Seal) (context : DeviceTag) : Except CipherError Bytes :=
  match sealing.validatePayload with
  | .error _ => .error .malformedSealedValue
  | .ok () =>
      match mode with
      | .plaintext => .ok ciphertext
      | .encrypted _ spaceKeys =>
          match spaceKeys.get context.cipherEpoch with
          | none => .error (.missingSpaceKey context.cipherEpoch)
          | some key =>
              match crypto.decrypt key sealing.nonce
                  (sealAad encodedTarget sealing.scheme opKind context) ciphertext
                  sealing.aead with
              | none => .error .decryptFailed
              | some opened => .ok opened

/-- What a Set value becomes before it is sealed. -/
def CipherMode.frame (mode : CipherMode) (value : Bytes) : Bytes :=
  match mode with
  | .plaintext => value
  | .encrypted _ _ => setFrameV1 :: value

/-- `encode_device_entry`. -/
def CipherMode.encodeDeviceEntry (mode : CipherMode) (mutation : Mutation Bytes) (tag : DeviceTag)
    (nonce : ValueNonce) : Except CipherError SealedEntry := do
  match mutation with
  | .set key value =>
      let (sealing, ciphertext) ←
        mode.sealDetached crypto key.encode setOpKind (mode.frame value) tag nonce
      .ok ⟨.set key ⟨ciphertext⟩, tag, sealing⟩
  | .delete key =>
      let (sealing, _) ← mode.sealDetached crypto key.encode deleteOpKind [] tag nonce
      .ok ⟨.delete key, tag, sealing⟩
  | .deleteRange range =>
      let (sealing, _) ← mode.sealDetached crypto range.encode deleteRangeOpKind [] tag nonce
      .ok ⟨.deleteRange range, tag, sealing⟩

/-- The mutation of an entry of an encrypted space, opened. -/
def CipherMode.openMutation (mode : CipherMode) (entry : SealedEntry) :
    Except CipherError (Mutation Bytes) := do
  match entry.mutation with
  | .set key value =>
      let plaintext ←
        mode.openDetached crypto key.encode setOpKind value.bytes entry.sealing entry.tag
      match plaintext with
      | [] => .error .malformedSealedValue
      | byte :: value =>
          if byte = setFrameV1 then .ok (.set key value) else .error .malformedSealedValue
  | .delete key =>
      let plaintext ←
        mode.openDetached crypto key.encode deleteOpKind [] entry.sealing entry.tag
      if plaintext = [] then .ok (.delete key) else .error .malformedSealedValue
  | .deleteRange range =>
      let plaintext ←
        mode.openDetached crypto range.encode deleteRangeOpKind [] entry.sealing entry.tag
      if plaintext = [] then .ok (.deleteRange range) else .error .malformedSealedValue

/-- `open_admitted_entry`. -/
def CipherMode.openAdmittedEntry (mode : CipherMode) (entry : Entry) :
    Except CipherError (AdmittedEntry Bytes) := do
  let device := entry.deviceEntry
  match device.sealing.validatePayload with
  | .error _ => .error .malformedSealedValue
  | .ok () =>
      let mutation ← match mode, device.mutation with
        | .plaintext, .set key value => .ok (.set key value.bytes)
        | .plaintext, .delete key => .ok (.delete key)
        | .plaintext, .deleteRange range => .ok (.deleteRange range)
        | .encrypted _ _, _ => mode.openMutation crypto device
      .ok ⟨⟨mutation, device.tag, device.sealing⟩, entry.admission⟩

end Values

end Homebase.Client
