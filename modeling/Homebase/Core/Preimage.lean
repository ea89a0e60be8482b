import Homebase.Core.Messages
import Homebase.Foundation.Delimited

set_option autoImplicit false

/-!
# Core: the preimage of a checksum determines its batch

The hasher of `AdmissionBatch::checksum` absorbs words, arrays and byte strings after their length,
so what it absorbs is read from left to right in one way.  `Range::encode` and `Seal::encode` are
absorbed after their length, so for them it is enough that they are injective.
-/

namespace Homebase.Core

open Foundation List

theorem Key.length_encode_le (key : Key) : key.encode.length ≤ maxEncodedKeyLen := by
  rw [encode, ← encodedComponentsLen_eq]
  exact key.encoded_le

theorem Range.encode_injective : Function.Injective Range.encode := by
  intro a b h
  cases a with
  | full =>
    cases b with
    | full => rfl
    | prefixed q => exact absurd (head_eq_of_cons_eq h) (by decide)
  | prefixed p =>
    cases b with
    | full => exact absurd (head_eq_of_cons_eq h) (by decide)
    | prefixed q =>
      have hkeys := append_inj_right (tail_eq_of_cons_eq h)
        (by rw [length_toBE, length_toBE])
      exact congrArg Range.prefixed (Key.encode_injective hkeys)

theorem Range.length_encode_le (range : Range) : range.encode.length ≤ maxEncodedKeyLen + 5 := by
  cases range with
  | full => simp [encode]
  | prefixed p =>
    have := p.length_encode_le
    simp only [encode, length_cons, length_append, length_toBE]
    omega

theorem Seal.encode_injective : Function.Injective Seal.encode := by
  rintro ⟨scheme, nonce, aead, payload⟩ ⟨scheme', nonce', aead', payload'⟩ h
  obtain ⟨rfl, haead⟩ := delimitedOn_bytes 24 (Set.mem_univ nonce) (Set.mem_univ nonce')
    (tail_eq_of_cons_eq h)
  obtain ⟨rfl, hlength⟩ := delimitedOn_bytes 16 (Set.mem_univ aead) (Set.mem_univ aead') haead
  have hpayload := append_inj_right hlength (by rw [length_toBE, length_toBE])
  cases scheme
  cases scheme'
  cases hpayload
  rfl

namespace AdmissionBatch

/-- The byte strings of an entry are vectors of the machine: they have fewer than `2 ^ 64` bytes. -/
structure EntrySized (entry : SealedEntry) : Prop where
  value : ∀ key value, entry.mutation = .set key value → value.bytes.length < 2 ^ 64
  sealing : entry.sealing.encode.length < 2 ^ 64

/-- The vectors of a batch are vectors of the machine. -/
structure Sized (batch : AdmissionBatch) : Prop where
  rangeAsserts : batch.rangeAsserts.length < 2 ^ 64
  entries : batch.entries.length < 2 ^ 64
  entry : ∀ entry ∈ batch.entries, EntrySized entry

theorem delimitedOn_hashBytes :
    DelimitedOn { bytes : Bytes | bytes.length < 2 ^ 64 } hashBytes := by
  intro a ha b hb x y h
  rw [hashBytes, hashBytes, Nat.mod_eq_of_lt ha, Nat.mod_eq_of_lt hb] at h
  exact delimitedOn_lengthPrefixed 8 ha hb h

theorem delimitedOn_u64 : DelimitedOn Set.univ (fun word : U64 => toBE 8 word.val) :=
  .of_length (fun word _ => length_toBE 8 word.val)
    fun a _ b _ h => Fin.ext (toBE_injective a.isLt b.isLt h)

theorem delimitedOn_key : DelimitedOn Set.univ (fun key : Key => hashBytes key.encode) := by
  have hsized : ∀ key : Key, key.encode.length < 2 ^ 64 := fun key =>
    lt_of_le_of_lt key.length_encode_le (by decide)
  intro a _ b _ x y h
  obtain ⟨hkey, hrest⟩ := delimitedOn_hashBytes (hsized a) (hsized b) h
  exact ⟨Key.encode_injective hkey, hrest⟩

theorem delimitedOn_range : DelimitedOn Set.univ (fun range : Range => hashBytes range.encode) := by
  have hsized : ∀ range : Range, range.encode.length < 2 ^ 64 := fun range =>
    lt_of_le_of_lt range.length_encode_le (by decide)
  intro a _ b _ x y h
  obtain ⟨hrange, hrest⟩ := delimitedOn_hashBytes (hsized a) (hsized b) h
  exact ⟨Range.encode_injective hrange, hrest⟩

theorem delimitedOn_assert : DelimitedOn Set.univ assertBytes := by
  rintro ⟨key, upto⟩ _ ⟨key', upto'⟩ _ x y h
  rw [assertBytes, assertBytes, append_assoc, append_assoc] at h
  obtain ⟨rfl, hupto⟩ := delimitedOn_key (Set.mem_univ key) (Set.mem_univ key') h
  obtain ⟨rfl, hrest⟩ := delimitedOn_u64 (Set.mem_univ upto) (Set.mem_univ upto') hupto
  exact ⟨rfl, hrest⟩

/-- The byte in front says which mutation follows. -/
theorem delimitedOn_mutation :
    DelimitedOn { m : Mutation OpaqueValue | ∀ key value, m = .set key value →
      value.bytes.length < 2 ^ 64 } mutationBytes := by
  intro a ha b hb x y h
  rcases a with ⟨key, value⟩ | key | range <;> rcases b with ⟨key', value'⟩ | key' | range' <;>
    obtain ⟨htag, htarget⟩ := List.cons.inj h <;> try (exact absurd htag (by decide))
  · change (hashBytes key.encode ++ hashBytes value.bytes) ++ x =
      (hashBytes key'.encode ++ hashBytes value'.bytes) ++ y at htarget
    rw [append_assoc, append_assoc] at htarget
    obtain ⟨rfl, hvalue⟩ := delimitedOn_key (Set.mem_univ key) (Set.mem_univ key') htarget
    obtain ⟨hsame, hrest⟩ := delimitedOn_hashBytes (ha key value rfl) (hb key value' rfl) hvalue
    obtain ⟨value⟩ := value
    obtain ⟨value'⟩ := value'
    cases hsame
    exact ⟨rfl, hrest⟩
  · obtain ⟨rfl, hrest⟩ := delimitedOn_key (Set.mem_univ key) (Set.mem_univ key') htarget
    exact ⟨rfl, hrest⟩
  · obtain ⟨rfl, hrest⟩ := delimitedOn_range (Set.mem_univ range) (Set.mem_univ range') htarget
    exact ⟨rfl, hrest⟩

theorem delimitedOn_entry : DelimitedOn { entry | EntrySized entry } entryBytes := by
  rintro ⟨mutation, ⟨device, seq, ver, epoch⟩, sealing⟩ ha
    ⟨mutation', ⟨device', seq', ver', epoch'⟩, sealing'⟩ hb x y h
  simp only [entryBytes, append_assoc] at h
  obtain ⟨rfl, hdevice⟩ := delimitedOn_mutation ha.value hb.value h
  obtain ⟨rfl, hseq⟩ := delimitedOn_bytes 16 (Set.mem_univ device) (Set.mem_univ device') hdevice
  obtain ⟨rfl, hver⟩ := delimitedOn_u64 (Set.mem_univ seq) (Set.mem_univ seq') hseq
  obtain ⟨rfl, hepoch⟩ := delimitedOn_u64 (Set.mem_univ ver) (Set.mem_univ ver') hver
  obtain ⟨rfl, hsealing⟩ := delimitedOn_u64 (Set.mem_univ epoch) (Set.mem_univ epoch') hepoch
  obtain ⟨hsame, hrest⟩ := delimitedOn_hashBytes ha.sealing hb.sealing hsealing
  cases Seal.encode_injective hsame
  exact ⟨rfl, hrest⟩

/-- What the hasher absorbs determines the batch, the checksum before it, the space and the
device. -/
theorem preimage_injective {batch batch' : AdmissionBatch} {previous previous' : DeviceChecksum}
    {space space' : SpaceId} {device device' : DeviceId} (hbatch : batch.Sized)
    (hbatch' : batch'.Sized)
    (h : batch.preimage previous space device = batch'.preimage previous' space' device') :
    batch = batch' ∧ previous = previous' ∧ space = space' ∧ device = device' := by
  obtain ⟨seq, asserts, entries⟩ := batch
  obtain ⟨seq', asserts', entries'⟩ := batch'
  have hlength : ∀ {n : Nat}, n < 2 ^ 64 → toBE 8 (n % 2 ^ 64) = toBE 8 n := fun hn => by
    rw [Nat.mod_eq_of_lt hn]
  simp only [preimage, hlength hbatch.rangeAsserts, hlength hbatch'.rangeAsserts,
    hlength hbatch.entries, hlength hbatch'.entries] at h
  obtain ⟨rfl, hspace⟩ := delimitedOn_bytes 32 (Set.mem_univ previous) (Set.mem_univ previous')
    (append_cancel_left h)
  obtain ⟨rfl, hdevice⟩ := delimitedOn_bytes 16 (Set.mem_univ space) (Set.mem_univ space') hspace
  obtain ⟨rfl, hseq⟩ := delimitedOn_bytes 16 (Set.mem_univ device) (Set.mem_univ device') hdevice
  obtain ⟨rfl, hcount⟩ := delimitedOn_u64 (Set.mem_univ seq) (Set.mem_univ seq') hseq
  obtain ⟨hlen, hasserts⟩ := delimitedOn_toBE 8 hbatch.rangeAsserts hbatch'.rangeAsserts hcount
  obtain ⟨rfl, hcount'⟩ := delimitedOn_assert.flatMap (fun _ _ => Set.mem_univ _)
    (fun _ _ => Set.mem_univ _) hlen hasserts
  obtain ⟨hlen', hentries⟩ := delimitedOn_toBE 8 hbatch.entries hbatch'.entries hcount'
  have hlast : entries.flatMap entryBytes ++ [] = entries'.flatMap entryBytes ++ [] :=
    congrArg (· ++ []) hentries
  obtain ⟨rfl, -⟩ := delimitedOn_entry.flatMap hbatch.entry hbatch'.entry hlen' hlast
  exact ⟨rfl, rfl, rfl, rfl⟩

end AdmissionBatch

end Homebase.Core
