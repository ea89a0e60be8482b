import Homebase.Core.Preimage
import Homebase.Refine.Run

set_option autoImplicit false

/-!
# Properties: the checksum of a device binds its stream

Each checksum is the hash of a batch and of the checksum before it.  As long as no two of the
strings that were hashed collide, and none of them hashes to the value of the empty stream, a
checksum belongs to one stream of one device in one space.
-/

namespace Homebase.Properties

open Foundation Homebase.Core Refine List

section Chains

variable (sha256 : Bytes → ByteArr 32) (space : SpaceId) (device : DeviceId)

/-- The checksum over batches of one device. -/
def batchChain (batches : List AdmissionBatch) : DeviceChecksum :=
  batches.foldl (fun checksum batch => batch.checksum sha256 checksum space device)
    DeviceChecksum.empty

/-- What is hashed while batches are folded from the empty checksum. -/
def Hashed (batches : List AdmissionBatch) : Set Bytes :=
  { bytes | ∃ front batch rest, batches = front ++ batch :: rest ∧
    bytes = batch.preimage (batchChain sha256 space device front) space device }

/-- The hash is injective on a set of strings and never gives the checksum of the empty stream. -/
structure Collisionless (hashed : Set Bytes) : Prop where
  injOn : Set.InjOn sha256 hashed
  ne_empty : ∀ bytes ∈ hashed, sha256 bytes ≠ DeviceChecksum.empty

variable {sha256 space device}

theorem batchChain_concat (front : List AdmissionBatch) (batch : AdmissionBatch) :
    batchChain sha256 space device (front ++ [batch]) =
      sha256 (batch.preimage (batchChain sha256 space device front) space device) :=
  foldl_append

theorem hashed_last (front : List AdmissionBatch) (batch : AdmissionBatch) :
    batch.preimage (batchChain sha256 space device front) space device ∈
      Hashed sha256 space device (front ++ [batch]) :=
  ⟨front, batch, [], rfl, rfl⟩

theorem hashed_front (front : List AdmissionBatch) (batch : AdmissionBatch) :
    Hashed sha256 space device front ⊆ Hashed sha256 space device (front ++ [batch]) := by
  rintro bytes ⟨first, hashed, rest, rfl, rfl⟩
  exact ⟨first, hashed, rest ++ [batch], by simp, rfl⟩

theorem Collisionless.mono {hashed hashed' : Set Bytes} (h : Collisionless sha256 hashed)
    (hsub : hashed' ⊆ hashed) : Collisionless sha256 hashed' :=
  ⟨h.injOn.mono hsub, fun bytes hbytes => h.ne_empty bytes (hsub hbytes)⟩

/-- No batch leads back to the checksum of the empty stream. -/
theorem eq_nil_of_batchChain_eq_empty {batches : List AdmissionBatch}
    (hsha : Collisionless sha256 (Hashed sha256 space device batches))
    (h : batchChain sha256 space device batches = DeviceChecksum.empty) : batches = [] := by
  rcases eq_nil_or_concat batches with rfl | ⟨front, batch, rfl⟩
  · rfl
  · rw [concat_eq_append, batchChain_concat] at h
    rw [concat_eq_append] at hsha
    exact absurd h (hsha.ne_empty _ (hashed_last front batch))

end Chains

/-- Two streams with one checksum are one stream, of one device in one space. -/
theorem chain_binds_stream (sha256 : Bytes → ByteArr 32) (space space' : SpaceId)
    (device device' : DeviceId) (batches batches' : List AdmissionBatch)
    (hsized : ∀ batch ∈ batches, batch.Sized) (hsized' : ∀ batch ∈ batches', batch.Sized)
    (hsha : Collisionless sha256
      (Hashed sha256 space device batches ∪ Hashed sha256 space' device' batches'))
    (hsame : batchChain sha256 space device batches = batchChain sha256 space' device' batches') :
    batches = batches' ∧ (batches ≠ [] → space = space' ∧ device = device') := by
  induction batches using List.reverseRecOn generalizing batches' with
  | nil =>
    refine ⟨?_, fun hne => absurd rfl hne⟩
    exact (eq_nil_of_batchChain_eq_empty (hsha.mono Set.subset_union_right) hsame.symm).symm
  | append_singleton front batch ih =>
    rcases eq_nil_or_concat batches' with rfl | ⟨front', batch', rfl⟩
    · have hnil := eq_nil_of_batchChain_eq_empty (hsha.mono Set.subset_union_left) hsame
      simp at hnil
    · rw [concat_eq_append] at hsized' hsha hsame ⊢
      -- the last strings that were hashed are the same
      rw [batchChain_concat, batchChain_concat] at hsame
      have hpreimage := hsha.injOn (.inl (hashed_last front batch)) (.inr (hashed_last front' batch'))
        hsame
      obtain ⟨rfl, hprevious, rfl, rfl⟩ := AdmissionBatch.preimage_injective
        (hsized batch (by simp)) (hsized' batch' (by simp)) hpreimage
      -- so the checksums before them are, and the streams up to there
      obtain ⟨rfl, -⟩ := ih front' (fun b hb => hsized b (mem_append_left _ hb))
        (fun b hb => hsized' b (mem_append_left _ hb))
        (hsha.mono (Set.union_subset_union (hashed_front front batch) (hashed_front front' batch)))
        hprevious
      exact ⟨rfl, fun _ => ⟨rfl, rfl⟩⟩

/-! ## Two batches -/

namespace TwoBatches

/-- A hash by the number of bytes. -/
def byLength (bytes : Bytes) : ByteArr 32 :=
  ⟨Fin.ofNat 256 bytes.length :: List.replicate 31 1, rfl⟩

def space : SpaceId := ByteArr.zero 16

def device : DeviceId := ByteArr.zero 16

def key : Key := Key.ofByte 107

/-- A batch that asserts about a key, and one that sets it. -/
def asserting : AdmissionBatch := ⟨1, [⟨key, 0⟩], []⟩

def setting : AdmissionBatch :=
  ⟨2, [], [⟨.set key ⟨[118]⟩, ⟨device, 2, 1, 0⟩, Seal.emptyAeadV1⟩]⟩

theorem sized : ∀ batch ∈ [asserting, setting], batch.Sized := by
  have hentry : ∀ entry ∈ setting.entries, AdmissionBatch.EntrySized entry := by
    refine forall_mem_singleton.mpr ⟨fun k v h => ?_, by decide⟩
    cases h
    decide
  intro batch hmem
  fin_cases hmem
  · exact ⟨by decide, by decide, forall_mem_nil _⟩
  · exact ⟨by decide, by decide, hentry⟩

theorem hashed_cases {bytes : Bytes} (h : bytes ∈ Hashed byLength space device [asserting, setting]) :
    bytes = asserting.preimage DeviceChecksum.empty space device ∨
      bytes = setting.preimage (batchChain byLength space device [asserting]) space device := by
  obtain ⟨front, batch, rest, hsplit, rfl⟩ := h
  rcases front with _ | ⟨first, _ | ⟨second, front⟩⟩
  · cases hsplit
    exact .inl rfl
  · cases hsplit
    exact .inr rfl
  · simp at hsplit

theorem collisionless :
    Collisionless byLength (Hashed byLength space device [asserting, setting] ∪
      Hashed byLength space device [asserting, setting]) := by
  rw [Set.union_self]
  refine ⟨fun a ha b hb hab => ?_, fun bytes hbytes => ?_⟩
  · rcases hashed_cases ha with rfl | rfl <;> rcases hashed_cases hb with rfl | rfl
    · rfl
    · exact absurd hab (by decide +kernel)
    · exact absurd hab (by decide +kernel)
    · rfl
  · exact fun h => absurd (congrArg (fun array => array.bytes.getLast?) h) (by simp [byLength]; decide)

end TwoBatches

open TwoBatches in
theorem chain_binds_stream_two :
    [asserting, setting] = [asserting, setting] ∧
      ([asserting, setting] ≠ [] → space = space ∧ device = device) :=
  chain_binds_stream byLength space space device device [asserting, setting] [asserting, setting]
    sized sized collisionless rfl

end Homebase.Properties
