import Homebase.Foundation.Fixed

set_option autoImplicit false

/-!
# Foundation: encodings that end by themselves

An encoding is delimited when its output can be split off whatever follows it.  A concatenation of
delimited encodings is read from left to right, one value after the other, so it determines the
values it is made of.  Words and arrays of a fixed length are delimited, and so is anything that
follows its own length.
-/

namespace Homebase.Foundation

open List

variable {α β : Type}

/-- On the values of `s`, the end of an encoding is known from its bytes. -/
def DelimitedOn (s : Set α) (f : α → List β) : Prop :=
  ∀ ⦃a⦄, a ∈ s → ∀ ⦃b⦄, b ∈ s → ∀ ⦃x y : List β⦄, f a ++ x = f b ++ y → a = b ∧ x = y

namespace DelimitedOn

variable {s : Set α} {f : α → List β}

/-- Encodings of one length are delimited. -/
theorem of_length {n : Nat} (hlength : ∀ a ∈ s, (f a).length = n) (hinj : Set.InjOn f s) :
    DelimitedOn s f := by
  intro a ha b hb x y h
  obtain ⟨hab, hxy⟩ := append_inj h ((hlength a ha).trans (hlength b hb).symm)
  exact ⟨hinj ha hb hab, hxy⟩

/-- Lists of one length, encoded value after value. -/
theorem flatMap (h : DelimitedOn s f) {as bs : List α} (has : ∀ a ∈ as, a ∈ s)
    (hbs : ∀ b ∈ bs, b ∈ s) (hlength : as.length = bs.length) {x y : List β}
    (heq : as.flatMap f ++ x = bs.flatMap f ++ y) : as = bs ∧ x = y := by
  induction as generalizing bs with
  | nil =>
    rw [length_nil] at hlength
    rw [List.length_eq_zero_iff.mp hlength.symm] at heq ⊢
    exact ⟨rfl, heq⟩
  | cons a as ih =>
    cases bs with
    | nil => cases hlength
    | cons b bs =>
      rw [flatMap_cons, flatMap_cons, append_assoc, append_assoc] at heq
      obtain ⟨rfl, hrest⟩ := h (has a mem_cons_self) (hbs b mem_cons_self) heq
      obtain ⟨rfl, hxy⟩ := ih (fun c hc => has c (mem_cons_of_mem _ hc))
        (fun c hc => hbs c (mem_cons_of_mem _ hc)) (Nat.succ.inj hlength) hrest
      exact ⟨rfl, hxy⟩

end DelimitedOn

/-- Words of a fixed number of bytes. -/
theorem delimitedOn_toBE (w : Nat) : DelimitedOn { n | n < 256 ^ w } (toBE w) :=
  .of_length (fun n _ => length_toBE w n) fun _ hn _ hm h => toBE_injective hn hm h

/-- Arrays of a fixed number of bytes. -/
theorem delimitedOn_bytes (n : Nat) :
    DelimitedOn Set.univ (fun array : ByteArr n => array.bytes) :=
  .of_length (fun array _ => array.length_eq) fun _ _ _ _ h => ByteArr.ext h

/-- Bytes that follow a word with their number. -/
theorem delimitedOn_lengthPrefixed (w : Nat) :
    DelimitedOn { bytes : Bytes | bytes.length < 256 ^ w }
      (fun bytes => toBE w bytes.length ++ bytes) := by
  intro a ha b hb x y h
  rw [append_assoc, append_assoc] at h
  obtain ⟨hlength, hrest⟩ := delimitedOn_toBE w ha hb h
  exact append_inj hrest hlength

end Homebase.Foundation
