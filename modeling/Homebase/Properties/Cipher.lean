import Homebase.Core.Preimage
import Homebase.Refine.Assertions

set_option autoImplicit false

/-!
# Properties: sealed names and values

The primitives are idealised by what has been asked of them.  Names: no two components in use under
one parent share a pseudonym.  Values: the AEAD opens what was sealed and nothing else, where what was
sealed is a set of calls of `encode_device_entry`, in any number of spaces.
-/

namespace Homebase.Client

open Foundation Homebase.Core Refine List

/-! ## Names -/

section Names

variable (crypto : Crypto)

/-- The key that names are encoded under below some components. -/
def pathKey (nameKey : ByteArr 32) (parents : List KeyComponent) : ByteArr 32 :=
  parents.foldl (fun key component => childNameKey crypto key component.bytes) nameKey

/-- A component is in use under a parent. -/
def InUse (names : Set Key) (parents : List KeyComponent) (component : KeyComponent) : Prop :=
  ∃ key ∈ names, parents ++ [component] <+: key.components

/-- The keyed name function is injective under every parent, on the names in use. -/
def NamesInjective (nameKey : ByteArr 32) (names : Set Key) : Prop :=
  ∀ parents c d, InUse names parents c → InUse names parents d →
    componentPseudonym crypto (pathKey crypto nameKey parents) c.bytes =
      componentPseudonym crypto (pathKey crypto nameKey parents) d.bytes → c = d

variable {crypto} {nameKey : ByteArr 32} {names : Set Key}

theorem pathKey_concat (parents : List KeyComponent) (c : KeyComponent) :
    pathKey crypto nameKey (parents ++ [c]) =
      childNameKey crypto (pathKey crypto nameKey parents) c.bytes := by
  rw [pathKey, foldl_append]
  rfl

/-- The first component of an encoded name is the pseudonym of the first component. -/
theorem encodeNameComponents_cons {path : ByteArr 32} {c : KeyComponent} {rest out : List KeyComponent}
    (h : encodeNameComponents crypto path (c :: rest) = .ok out) :
    ∃ c' rest', out = c' :: rest' ∧ c'.bytes = (componentPseudonym crypto path c.bytes).bytes ∧
      encodeNameComponents crypto (childNameKey crypto path c.bytes) rest = .ok rest' := by
  rw [encodeNameComponents] at h
  obtain ⟨c', hc', h⟩ := of_bind h
  obtain ⟨rest', hrest', h⟩ := of_bind h
  cases h
  refine ⟨c', rest', rfl, ?_, hrest'⟩
  rw [KeyComponent.new] at hc'
  split at hc'
  · cases hc'
  split at hc'
  · cases hc'
  · cases hc'
    rfl

/-- Where names are injective, an encoded prefix comes from a prefix. -/
theorem isPrefix_of_encoded (hinj : NamesInjective crypto nameKey names) {key key' : Key}
    (hkey : key ∈ names) (hkey' : key' ∈ names) (parents : List KeyComponent)
    {xs ys xs' ys' : List KeyComponent}
    (hxs : parents ++ xs = key.components) (hys : parents ++ ys = key'.components)
    (hencode : encodeNameComponents crypto (pathKey crypto nameKey parents) xs = .ok xs')
    (hencode' : encodeNameComponents crypto (pathKey crypto nameKey parents) ys = .ok ys')
    (hpre : xs' <+: ys') : xs <+: ys := by
  induction xs generalizing parents ys xs' ys' with
  | nil => exact nil_prefix
  | cons x xs ih =>
    obtain ⟨x', rest, rfl, hx, hrest⟩ := encodeNameComponents_cons hencode
    cases ys with
    | nil =>
      cases hencode'
      exact absurd hpre (by simp)
    | cons y ys =>
      obtain ⟨y', rest', rfl, hy, hrest'⟩ := encodeNameComponents_cons hencode'
      obtain ⟨rfl, htail⟩ := cons_prefix_cons.mp hpre
      have hsame : x = y := by
        refine hinj parents x y ⟨key, hkey, ?_⟩ ⟨key', hkey', ?_⟩ (ByteArr.ext (hx.symm.trans hy))
        · exact ⟨xs, by rw [← hxs, append_assoc]; rfl⟩
        · exact ⟨ys, by rw [← hys, append_assoc]; rfl⟩
      subst hsame
      rw [← pathKey_concat] at hrest hrest'
      refine cons_prefix_cons.mpr ⟨rfl, ih _ ?_ ?_ hrest hrest' htail⟩
      · rw [← hxs, append_assoc]
        rfl
      · rw [← hys, append_assoc]
        rfl

/-- Every key has an encoded name with as many components. -/
theorem encodeKey_length (mode : CipherMode) (key : Key) :
    ∃ encoded, mode.encodeKey crypto key = .ok encoded ∧
      encoded.components.length = key.components.length := by
  cases mode with
  | plaintext => exact ⟨key, rfl, rfl⟩
  | encrypted nameKey spaceKeys =>
    obtain ⟨xs, ys, hxs, -, hlength, -, hbytes⟩ :=
      encodeNameComponents_append crypto nameKey key.components []
    obtain ⟨encoded, hencoded, hcomponents⟩ := new_of_pseudonyms key hlength
      fun c hc => hbytes c (mem_append_left _ hc)
    refine ⟨encoded, ?_, hcomponents ▸ hlength⟩
    simp only [CipherMode.encodeKey, encodeNameKey, hxs, ok_bind, hencoded, orInvalidKey]

/-- The names a space encodes are injective under every parent. -/
def CipherMode.NamesInjective (crypto : Crypto) (mode : CipherMode) (names : Set Key) : Prop :=
  match mode with
  | .plaintext => True
  | .encrypted nameKey _ => Client.NamesInjective crypto nameKey names

theorem encodeNameKey_components {key encoded : Key}
    (h : encodeNameKey crypto nameKey key = .ok encoded) :
    encodeNameComponents crypto nameKey key.components = .ok encoded.components := by
  rw [encodeNameKey] at h
  obtain ⟨out, hout, h⟩ := of_bind h
  rw [hout]
  rw [Key.new] at h
  split at h
  · cases h
  split at h
  · cases h
  split at h
  · cases h
  · cases h
    rfl

/-- Encoding preserves prefixes and introduces none. -/
theorem startsWith_encodeKey_iff {mode : CipherMode} (hinj : mode.NamesInjective crypto names)
    {key ancestor encoded encodedAncestor : Key} (hkey : key ∈ names) (hancestor : ancestor ∈ names)
    (hencode : mode.encodeKey crypto key = .ok encoded)
    (hencode' : mode.encodeKey crypto ancestor = .ok encodedAncestor) :
    encoded.startsWith encodedAncestor = true ↔ key.startsWith ancestor = true := by
  constructor
  · intro hstarts
    cases mode with
    | plaintext =>
      cases hencode
      cases hencode'
      exact hstarts
    | encrypted nameKey spaceKeys =>
      exact Key.startsWith_iff.mpr (isPrefix_of_encoded hinj hancestor hkey [] rfl rfl
        (encodeNameKey_components hencode') (encodeNameKey_components hencode)
        (Key.startsWith_iff.mp hstarts))
  · intro hstarts
    obtain ⟨e, e', he, he', h⟩ := encodeKey_startsWith crypto mode hstarts
    cases hencode.symm.trans he
    cases hencode'.symm.trans he'
    exact h

end Names

/-! ## What is authenticated -/

/-- The target of a mutation, as it is authenticated. -/
def target {α : Type} : Mutation α → Bytes
  | .set key _ => key.encode
  | .delete key => key.encode
  | .deleteRange range => range.encode

/-- The operation kind of a mutation. -/
def opKind {α : Type} : Mutation α → U8
  | .set _ _ => setOpKind
  | .delete _ => deleteOpKind
  | .deleteRange _ => deleteRangeOpKind

/-- The associated data determines the operation kind, the target and the tag. -/
theorem sealAad_injective {target target' : Bytes} {scheme scheme' : SealScheme} {kind kind' : U8}
    {tag tag' : DeviceTag} (h : sealAad target scheme kind tag = sealAad target' scheme' kind' tag') :
    target = target' ∧ kind = kind' ∧ tag = tag' := by
  obtain ⟨device, deviceSeq, ver, epoch⟩ := tag
  obtain ⟨device', deviceSeq', ver', epoch'⟩ := tag'
  have hheader := append_cancel_left h
  obtain ⟨-, hkind⟩ := List.cons.inj hheader
  obtain ⟨rfl, hepoch⟩ := List.cons.inj hkind
  obtain ⟨rfl, hdevice⟩ := AdmissionBatch.delimitedOn_u64 (Set.mem_univ epoch) (Set.mem_univ _) hepoch
  obtain ⟨rfl, hseq⟩ := delimitedOn_bytes 16 (Set.mem_univ device) (Set.mem_univ _) hdevice
  obtain ⟨rfl, hver⟩ := AdmissionBatch.delimitedOn_u64 (Set.mem_univ deviceSeq) (Set.mem_univ _) hseq
  obtain ⟨rfl, hlength⟩ := AdmissionBatch.delimitedOn_u64 (Set.mem_univ ver) (Set.mem_univ _) hver
  refine ⟨append_inj_right hlength ?_, rfl, rfl⟩
  rw [length_toBE, length_toBE]

/-! ## What has been sealed -/

/-- One call of `encode_device_entry`, in a space. -/
structure Sealing where
  mode : CipherMode
  mutation : Mutation Bytes
  tag : DeviceTag
  nonce : ValueNonce

/-- One call of the AEAD. -/
structure AeadCall where
  key : ByteArr 32
  nonce : ByteArr 24
  aad : Bytes
  plaintext : Bytes

/-- What is encrypted of a mutation. -/
def framed : Mutation Bytes → Bytes
  | .set _ value => setFrameV1 :: value
  | .delete _ => []
  | .deleteRange _ => []

/-- The entry a call gives. -/
def Sealing.entry (crypto : Crypto) (s : Sealing) : Except CipherError SealedEntry :=
  s.mode.encodeDeviceEntry crypto s.mutation s.tag s.nonce

/-- The call of the AEAD it makes, if any. -/
def Sealing.call (s : Sealing) : Option AeadCall :=
  match s.mode with
  | .plaintext => none
  | .encrypted _ spaceKeys =>
      (spaceKeys.get s.tag.cipherEpoch).map fun key =>
        ⟨key, s.nonce, sealAad (target s.mutation) .aeadV1 (opKind s.mutation) s.tag,
          framed s.mutation⟩

/-- An ideal AEAD encrypts in place, opens what has been sealed and nothing else. -/
structure Ideal (crypto : Crypto) (sealings : Set Sealing) : Prop where
  encrypts : ∀ key nonce aad plaintext, ∃ tag ciphertext,
    crypto.encrypt key nonce aad plaintext = some (tag, ciphertext) ∧
      ciphertext.length = plaintext.length
  opens : ∀ s ∈ sealings, ∀ call tag ciphertext, s.call = some call →
    crypto.encrypt call.key call.nonce call.aad call.plaintext = some (tag, ciphertext) →
    crypto.decrypt call.key call.nonce call.aad ciphertext tag = some call.plaintext
  rejects : ∀ key nonce aad ciphertext tag plaintext,
    crypto.decrypt key nonce aad ciphertext tag = some plaintext →
    ∃ s ∈ sealings, s.call = some ⟨key, nonce, aad, plaintext⟩ ∧
      crypto.encrypt key nonce aad plaintext = some (tag, ciphertext)

/-- A mutation with its value encrypted. -/
def withCiphertext (mutation : Mutation Bytes) (ciphertext : Bytes) : Mutation OpaqueValue :=
  match mutation with
  | .set key _ => .set key ⟨ciphertext⟩
  | .delete key => .delete key
  | .deleteRange range => .deleteRange range

section Values

variable {crypto : Crypto} {s : Sealing} {sealings : Set Sealing} {call : AeadCall}
  {ciphertext : Bytes}

theorem entry_of_call {tag : ByteArr 16} (hcall : s.call = some call)
    (hencrypt : crypto.encrypt call.key call.nonce call.aad call.plaintext =
      some (tag, ciphertext)) :
    s.entry crypto = .ok ⟨withCiphertext s.mutation ciphertext, s.tag, ⟨.aeadV1, s.nonce, tag, []⟩⟩ := by
  obtain ⟨mode, mutation, deviceTag, nonce⟩ := s
  cases mode with
  | plaintext => cases hcall
  | encrypted nameKey spaceKeys =>
    obtain ⟨key, hkey, rfl⟩ := Option.map_eq_some_iff.mp hcall
    dsimp only at hkey hencrypt
    cases mutation <;>
      simp only [Sealing.entry, CipherMode.encodeDeviceEntry, CipherMode.sealDetached,
        CipherMode.frame, framed, target, opKind, withCiphertext] at hencrypt ⊢ <;>
      simp only [hkey, hencrypt, ok_bind]

variable {nameKey : ByteArr 32} {spaceKeys : OrdMap U64 (ByteArr 32)}

/-- Opening asks the AEAD under the key of the epoch. -/
theorem openDetached_eq_ok_iff {encodedTarget plaintext : Bytes} {kind : U8} {sealing : Seal}
    {tag : DeviceTag} :
    (CipherMode.encrypted nameKey spaceKeys).openDetached crypto encodedTarget kind ciphertext
        sealing tag = .ok plaintext ↔
      sealing.payload = [] ∧ ∃ key, spaceKeys.get tag.cipherEpoch = some key ∧
        crypto.decrypt key sealing.nonce (sealAad encodedTarget .aeadV1 kind tag) ciphertext
          sealing.aead = some plaintext := by
  obtain ⟨scheme, nonce, aead, payload⟩ := sealing
  cases scheme
  simp only [CipherMode.openDetached, Seal.validatePayload]
  by_cases hpayload : payload = []
  · simp only [hpayload, if_true, true_and]
    cases spaceKeys.get tag.cipherEpoch with
    | none => simp
    | some key =>
      simp only [Option.some.injEq, exists_eq_left']
      cases crypto.decrypt key nonce (sealAad encodedTarget .aeadV1 kind tag) ciphertext aead <;> simp
  · simp [hpayload]

/-- The ciphertext an entry carries. -/
def ciphertextOf : Mutation OpaqueValue → Bytes
  | .set _ value => value.bytes
  | .delete _ => []
  | .deleteRange _ => []

/-- An entry of an encrypted space is opened to a mutation when the AEAD opens its ciphertext to what
is encrypted of that mutation. -/
theorem openMutation_eq_ok_iff {entry : SealedEntry} {mutation : Mutation Bytes} :
    (CipherMode.encrypted nameKey spaceKeys).openMutation crypto entry = .ok mutation ↔
      withCiphertext mutation (ciphertextOf entry.mutation) = entry.mutation ∧
      entry.sealing.payload = [] ∧ ∃ key, spaceKeys.get entry.tag.cipherEpoch = some key ∧
        crypto.decrypt key entry.sealing.nonce
          (sealAad (target mutation) .aeadV1 (opKind mutation) entry.tag)
          (ciphertextOf entry.mutation) entry.sealing.aead = some (framed mutation) := by
  obtain ⟨sealed, tag, sealing⟩ := entry
  cases sealed with
  | set key value =>
    simp only [CipherMode.openMutation, bind_eq_ok_iff, openDetached_eq_ok_iff, ciphertextOf]
    constructor
    · rintro ⟨plaintext, ⟨hpayload, spaceKey, hkey, hdecrypt⟩, h⟩
      cases plaintext with
      | nil => cases h
      | cons byte rest =>
        dsimp only at h
        split at h
        next hframe =>
          cases h
          subst hframe
          exact ⟨rfl, hpayload, spaceKey, hkey, hdecrypt⟩
        next => cases h
    · rintro ⟨hsame, hpayload, spaceKey, hkey, hdecrypt⟩
      cases mutation with
      | set key' value' =>
        cases hsame
        refine ⟨setFrameV1 :: value', ⟨hpayload, spaceKey, hkey, hdecrypt⟩, ?_⟩
        simp
      | delete | deleteRange => cases hsame
  | delete _ | deleteRange _ =>
    simp only [CipherMode.openMutation, bind_eq_ok_iff, openDetached_eq_ok_iff, ciphertextOf]
    constructor
    · rintro ⟨plaintext, ⟨hpayload, spaceKey, hkey, hdecrypt⟩, h⟩
      split at h
      next hempty =>
        cases h
        subst hempty
        exact ⟨rfl, hpayload, spaceKey, hkey, hdecrypt⟩
      next => cases h
    · rintro ⟨hsame, hpayload, spaceKey, hkey, hdecrypt⟩
      cases mutation <;> cases hsame
      exact ⟨[], ⟨hpayload, spaceKey, hkey, hdecrypt⟩, rfl⟩

variable {entry : Entry} {opened : AdmittedEntry Bytes}

/-- An entry of an encrypted space is opened when its mutation is, and keeps its tags and seal. -/
theorem openAdmittedEntry_eq_ok_iff :
    (CipherMode.encrypted nameKey spaceKeys).openAdmittedEntry crypto entry = .ok opened ↔
      ∃ mutation,
        (CipherMode.encrypted nameKey spaceKeys).openMutation crypto entry.deviceEntry = .ok mutation ∧
        opened = ⟨⟨mutation, entry.deviceEntry.tag, entry.deviceEntry.sealing⟩, entry.admission⟩ := by
  have hvalid : entry.deviceEntry.sealing.payload = [] →
      entry.deviceEntry.sealing.validatePayload = .ok () := by
    intro hpayload
    rw [Seal.validatePayload]
    cases entry.deviceEntry.sealing.scheme
    exact if_pos hpayload
  rw [CipherMode.openAdmittedEntry]
  constructor
  · intro h
    dsimp only at h
    split at h
    · cases h
    · obtain ⟨mutation, hmutation, h⟩ := of_bind h
      cases h
      exact ⟨mutation, hmutation, rfl⟩
  · rintro ⟨mutation, hmutation, rfl⟩
    rw [hvalid (openMutation_eq_ok_iff.mp hmutation).2.1]
    simp only [hmutation, ok_bind]

/-- A sealed entry is opened to the mutation it was made of. -/
theorem open_entry (hideal : Ideal crypto sealings) (hs : s ∈ sealings) (hcall : s.call = some call)
    (admission : AdmissionTag) :
    ∃ entry, s.entry crypto = .ok entry ∧
      s.mode.openAdmittedEntry crypto ⟨entry, admission⟩ =
        .ok ⟨⟨s.mutation, s.tag, entry.sealing⟩, admission⟩ := by
  obtain ⟨tag, ciphertext, hencrypt, hlength⟩ :=
    hideal.encrypts call.key call.nonce call.aad call.plaintext
  have hdecrypt := hideal.opens s hs call tag ciphertext hcall hencrypt
  refine ⟨_, entry_of_call hcall hencrypt, ?_⟩
  obtain ⟨mode, mutation, deviceTag, nonce⟩ := s
  cases mode with
  | plaintext => cases hcall
  | encrypted nameKey spaceKeys =>
    obtain ⟨key, hkey, rfl⟩ := Option.map_eq_some_iff.mp hcall
    -- a deletion encrypts nothing, so its ciphertext is the empty one the entry stands for
    have hciphertext : ciphertextOf (withCiphertext mutation ciphertext) = ciphertext := by
      cases mutation with
      | set => rfl
      | delete | deleteRange => exact (length_eq_zero_iff.mp hlength).symm
    refine openAdmittedEntry_eq_ok_iff.mpr ⟨mutation, openMutation_eq_ok_iff.mpr ?_, rfl⟩
    dsimp only
    rw [hciphertext]
    exact ⟨rfl, rfl, key, hkey, hdecrypt⟩

/-- Without a call of the AEAD, the epoch has no key or the space is a plaintext one. -/
theorem entry_without_call (hcall : s.call = none) (admission : AdmissionTag) :
    (∃ nameKey spaceKeys, s.mode = .encrypted nameKey spaceKeys ∧
      spaceKeys.get s.tag.cipherEpoch = none ∧
      s.entry crypto = .error (.missingSpaceKey s.tag.cipherEpoch)) ∨
    ∃ entry, s.entry crypto = .ok entry ∧
      s.mode.openAdmittedEntry crypto ⟨entry, admission⟩ =
        .ok ⟨⟨s.mutation, s.tag, entry.sealing⟩, admission⟩ := by
  obtain ⟨mode, mutation, tag, nonce⟩ := s
  cases mode with
  | plaintext =>
    refine .inr ?_
    cases mutation with
    | set key value => exact ⟨⟨.set key ⟨value⟩, tag, Seal.emptyAeadV1⟩, rfl, rfl⟩
    | delete key => exact ⟨⟨.delete key, tag, Seal.emptyAeadV1⟩, rfl, rfl⟩
    | deleteRange range => exact ⟨⟨.deleteRange range, tag, Seal.emptyAeadV1⟩, rfl, rfl⟩
  | encrypted nameKey spaceKeys =>
    have hkey : spaceKeys.get tag.cipherEpoch = none := Option.map_eq_none_iff.mp hcall
    refine .inl ⟨nameKey, spaceKeys, rfl, hkey, ?_⟩
    cases mutation <;>
      simp only [Sealing.entry, CipherMode.encodeDeviceEntry, CipherMode.sealDetached, hkey,
        error_bind]

/-- The target, the operation kind and what is encrypted determine a mutation. -/
theorem eq_of_authenticated {a b : Mutation Bytes} (htarget : target a = target b)
    (hkind : opKind a = opKind b) (hframed : framed a = framed b) : a = b := by
  cases a with
  | set key value =>
    cases b with
    | set key' value' =>
      obtain rfl := Key.encode_injective htarget
      obtain rfl := (List.cons.inj hframed).2
      rfl
    | delete | deleteRange => cases hkind
  | delete key =>
    cases b with
    | delete key' =>
      obtain rfl := Key.encode_injective htarget
      rfl
    | set | deleteRange => cases hkind
  | deleteRange range =>
    cases b with
    | deleteRange range' =>
      obtain rfl := Range.encode_injective htarget
      rfl
    | set | delete => cases hkind

/-- What an encrypted space opens was sealed, under the key the space has for the epoch. -/
theorem sealed_of_open (hideal : Ideal crypto sealings)
    (h : (CipherMode.encrypted nameKey spaceKeys).openAdmittedEntry crypto entry = .ok opened) :
    ∃ s ∈ sealings, s.entry crypto = .ok entry.deviceEntry ∧
      ∃ call, s.call = some call ∧ spaceKeys.get s.tag.cipherEpoch = some call.key := by
  obtain ⟨mutation, hmutation, -⟩ := openAdmittedEntry_eq_ok_iff.mp h
  obtain ⟨hsame, hpayload, key, hkey, hdecrypt⟩ := openMutation_eq_ok_iff.mp hmutation
  obtain ⟨s, hs, hcall, hencrypt⟩ := hideal.rejects _ _ _ _ _ _ hdecrypt
  have hentry := entry_of_call hcall hencrypt
  obtain ⟨mode, sealed, tag, nonce⟩ := s
  cases mode with
  | plaintext => cases hcall
  | encrypted nameKey' spaceKeys' =>
    obtain ⟨key', hkey', hargs⟩ := Option.map_eq_some_iff.mp hcall
    obtain ⟨rfl, rfl, haad, hframed⟩ := AeadCall.mk.inj hargs
    obtain ⟨htarget, hkind, rfl⟩ := sealAad_injective haad
    obtain rfl := eq_of_authenticated htarget hkind hframed
    refine ⟨_, hs, hentry.trans (congrArg Except.ok ?_), _, hcall, hkey⟩
    obtain ⟨⟨sealed', tag', scheme, nonce', aead, payload⟩, admission⟩ := entry
    cases scheme
    obtain rfl : payload = [] := hpayload
    dsimp only at hsame ⊢
    rw [hsame]

/-- Sealed names and values.  Encoding a key never fails and keeps the number of its components;
where the names in use are injective under every parent, it preserves prefixes and introduces none.
Where the AEAD opens what was sealed and nothing else, sealing a mutation fails only for an epoch
without a key, and opening the admitted form of what it gives returns the mutation.  An encrypted
space rejects every entry that is not, in its mutation, target, tag, seal and ciphertext, one that was
sealed under the value key the space itself has for the epoch. -/
theorem sealed_names_and_values {names : Set Key} {mode : CipherMode}
    (hnames : mode.NamesInjective crypto names) (hideal : Ideal crypto sealings) :
    (∀ key, ∃ encoded, mode.encodeKey crypto key = .ok encoded ∧
      encoded.components.length = key.components.length) ∧
    (∀ key ∈ names, ∀ ancestor ∈ names, ∀ encoded encodedAncestor,
      mode.encodeKey crypto key = .ok encoded →
      mode.encodeKey crypto ancestor = .ok encodedAncestor →
      (encoded.startsWith encodedAncestor = true ↔ key.startsWith ancestor = true)) ∧
    (∀ s ∈ sealings, ∀ admission,
      (∃ nameKey spaceKeys, s.mode = .encrypted nameKey spaceKeys ∧
        spaceKeys.get s.tag.cipherEpoch = none ∧
        s.entry crypto = .error (.missingSpaceKey s.tag.cipherEpoch)) ∨
      ∃ entry, s.entry crypto = .ok entry ∧
        s.mode.openAdmittedEntry crypto ⟨entry, admission⟩ =
          .ok ⟨⟨s.mutation, s.tag, entry.sealing⟩, admission⟩) ∧
    ∀ nameKey spaceKeys entry,
      (∃ s ∈ sealings, s.entry crypto = .ok entry.deviceEntry ∧
        ∃ call, s.call = some call ∧ spaceKeys.get s.tag.cipherEpoch = some call.key) ∨
      ∃ error, (CipherMode.encrypted nameKey spaceKeys).openAdmittedEntry crypto entry =
        .error error := by
  refine ⟨encodeKey_length mode, fun key hkey ancestor hancestor encoded encodedAncestor h h' =>
    startsWith_encodeKey_iff hnames hkey hancestor h h', fun s hs admission => ?_,
    fun nameKey spaceKeys entry => ?_⟩
  · cases hcall : s.call with
    | some call => exact .inr (open_entry hideal hs hcall admission)
    | none => exact entry_without_call hcall admission
  · cases hopen : (CipherMode.encrypted nameKey spaceKeys).openAdmittedEntry crypto entry with
    | error error => exact .inr ⟨error, rfl⟩
    | ok opened => exact .inl (sealed_of_open hideal hopen)

end Values

/-! ## Two spaces with one value key -/

namespace SharedKey

/-- The value keys of both spaces. -/
def spaceKeys : OrdMap U64 (ByteArr 32) := OrdMap.empty.insert v1CipherEpoch (.filled 32 9)

/-- A name in use. -/
def parent : Key := Key.ofByte 1

/-- A name in use below it. -/
def child : Key := Key.ofTwoBytes 1 2

/-- The device writes a mutation. -/
def writing (mutation : Mutation Bytes) : Sealing where
  mode := .encrypted (.filled 32 1) spaceKeys
  mutation := mutation
  tag := ⟨.filled 16 7, 8, 9, v1CipherEpoch⟩
  nonce := .filled 24 3

/-- A range deletion of the whole space. -/
def sealing : Sealing := writing (.deleteRange .full)

/-- A value under a name. -/
def setting : Sealing := writing (.set parent [4])

/-- The associated data of what is sealed. -/
def aad (s : Sealing) : Bytes := sealAad (target s.mutation) .aeadV1 (opKind s.mutation) s.tag

/-- Primitives that are ideal when only these two have been sealed. -/
def crypto : Crypto where
  hmac := fun _ _ => .filled 32 0
  hkdf := fun _ _ _ => .filled 32 0
  encrypt := fun _ _ _ plaintext => some (.filled 16 5, plaintext)
  decrypt := fun key nonce data ciphertext tag =>
    if key = .filled 32 9 ∧ nonce = .filled 24 3 ∧ tag = .filled 16 5 ∧
        (data = aad sealing ∧ ciphertext = [] ∨ data = aad setting ∧ ciphertext = [1, 4]) then
      some ciphertext
    else none

theorem call_eq (mutation : Mutation Bytes) : (writing mutation).call =
    some ⟨.filled 32 9, .filled 24 3, aad (writing mutation), framed mutation⟩ := rfl

theorem ideal : Ideal crypto {sealing, setting} where
  encrypts := fun _ _ _ plaintext => ⟨.filled 16 5, plaintext, rfl, rfl⟩
  opens := by
    rintro s (rfl | rfl) call tag ciphertext hcall hencrypt <;>
    · obtain rfl := Option.some.inj ((call_eq _).symm.trans hcall)
      cases hencrypt
      simp [crypto, framed, setFrameV1, sealing, setting]
  rejects := by
    intro key nonce data ciphertext tag plaintext hdecrypt
    simp only [crypto] at hdecrypt
    split at hdecrypt
    next hargs =>
      obtain ⟨rfl, rfl, rfl, ⟨rfl, rfl⟩ | ⟨rfl, rfl⟩⟩ := hargs
      · cases hdecrypt
        exact ⟨sealing, .inl rfl, call_eq _, rfl⟩
      · cases hdecrypt
        exact ⟨setting, .inr rfl, call_eq _, rfl⟩
    next => cases hdecrypt

theorem names_injective : sealing.mode.NamesInjective crypto {parent, child} := by
  have hpre : ∀ parents c, InUse {parent, child} parents c →
      parents ++ [c] <+: child.components := by
    rintro parents c ⟨key, rfl | rfl, hkey⟩
    · exact hkey.trans (by decide)
    · exact hkey
  intro parents c d hc hd _
  have hsame := (prefix_of_prefix_length_le (hpre parents c hc) (hpre parents d hd)
    (by simp)).eq_of_length (by simp)
  exact singleton_inj.mp (append_cancel_left hsame)

/-- The entry that was sealed in one space. -/
def entry : SealedEntry := ⟨.deleteRange .full, sealing.tag, ⟨.aeadV1, .filled 24 3, .filled 16 5, []⟩⟩

/-- Another space, with a name key of its own and the same value key, opens it. -/
theorem opened_in_another_space :
    Ideal crypto {sealing, setting} ∧ sealing.mode.NamesInjective crypto {parent, child} ∧
      sealing.entry crypto = .ok entry ∧ ByteArr.filled 32 1 ≠ .filled 32 2 ∧
      ∃ opened, (CipherMode.encrypted (.filled 32 2) spaceKeys).openAdmittedEntry crypto
        ⟨entry, ⟨0, 0⟩⟩ = .ok opened := by
  refine ⟨ideal, names_injective, by decide +kernel, by decide,
    ⟨⟨.deleteRange .full, sealing.tag, entry.sealing⟩, ⟨0, 0⟩⟩, ?_⟩
  decide +kernel

/-- The value is opened, and a deletion of its name that nobody sealed is rejected. -/
theorem sealed_names_and_values_shared :
    (∃ entry, setting.entry crypto = .ok entry ∧
      setting.mode.openAdmittedEntry crypto ⟨entry, ⟨0, 0⟩⟩ =
        .ok ⟨⟨.set parent [4], setting.tag, entry.sealing⟩, ⟨0, 0⟩⟩) ∧
      ∃ error, setting.mode.openAdmittedEntry crypto
        ⟨{ entry with mutation := .delete parent }, ⟨0, 0⟩⟩ = .error error := by
  obtain ⟨-, -, hopens, hrejects⟩ := sealed_names_and_values names_injective ideal
  refine ⟨(hopens setting (.inr rfl) ⟨0, 0⟩).resolve_left ?_, (hrejects _ _ _).resolve_left ?_⟩
  · rintro ⟨nameKey, keys, hmode, hnone, -⟩
    cases hmode
    exact absurd hnone (by decide +kernel)
  · rintro ⟨s, rfl | rfl, hentry, -⟩
    · exact absurd hentry (by decide +kernel)
    · exact absurd hentry (by decide +kernel)

end SharedKey

end Homebase.Client
