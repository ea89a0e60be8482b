import Mathlib

set_option autoImplicit false

/-!
# Foundation: topmost elements

In an order of nested regions, the topmost elements of a set are those that lie in no other of its
elements.  They cover what the whole set covers, and what is put in later changes them in one of two
ways: a region that lies in one of them is already covered, and any other region replaces those that
lie in it.
-/

namespace Homebase.Foundation

variable {K : Type}

/-- Regions that lie in each other, where a region that lies in another one has a greater depth. -/
structure Nested (under : K → K → Prop) (depth : K → Nat) : Prop where
  refl : ∀ k, under k k
  trans : ∀ {a b c}, under a b → under b c → under a c
  antisymm : ∀ {a b}, under a b → under b a → a = b
  depth_lt : ∀ {a b}, under a b → b ≠ a → depth b < depth a

/-- The elements that lie in no other element. -/
def topmost (under : K → K → Prop) (S : Set K) : Set K :=
  { k | k ∈ S ∧ ∀ a ∈ S, under k a → a = k }

/-- What lies in some element. -/
def covered (under : K → K → Prop) (S : Set K) : Set K :=
  { x | ∃ k ∈ S, under x k }

variable {under : K → K → Prop} {depth : K → Nat} {S T : Set K}

theorem isAntichain_topmost : IsAntichain under (topmost under S) := by
  intro a ha b hb hne hab
  exact hne (ha.2 b hb.1 hab).symm

namespace Nested

variable (h : Nested under depth)

include h

/-- Every element lies in a topmost one. -/
theorem exists_topmost {a : K} (ha : a ∈ S) : ∃ k ∈ topmost under S, under a k := by
  induction hdepth : depth a using Nat.strong_induction_on generalizing a with
  | _ n ih =>
    by_cases htop : ∀ b ∈ S, under a b → b = a
    · exact ⟨a, ⟨ha, htop⟩, h.refl a⟩
    · push Not at htop
      obtain ⟨b, hb, hab, hne⟩ := htop
      obtain ⟨k, hk, hbk⟩ := ih (depth b) (hdepth ▸ h.depth_lt hab hne) hb rfl
      exact ⟨k, hk, h.trans hab hbk⟩

/-- What is kept by the regions that contain a region holds of an element as soon as it holds of a
topmost one. -/
theorem exists_topmost_iff {P : K → Prop} (hP : ∀ {a b}, under a b → P a → P b) :
    (∃ k ∈ topmost under S, P k) ↔ ∃ k ∈ S, P k := by
  constructor
  · rintro ⟨k, hk, hPk⟩
    exact ⟨k, hk.1, hPk⟩
  · rintro ⟨a, ha, hPa⟩
    obtain ⟨k, hk, hak⟩ := h.exists_topmost ha
    exact ⟨k, hk, hP hak hPa⟩

/-- The topmost elements cover what the set covers. -/
theorem covered_topmost : covered under (topmost under S) = covered under S := by
  ext x
  exact h.exists_topmost_iff fun hab hxa => h.trans hxa hab

theorem topmost_subset_of_covered (hST : covered under S = covered under T) :
    topmost under S ⊆ topmost under T := by
  -- what covers an element of `topmost S` from `T` is covered from `S`, so it is that element
  have hback : ∀ {k}, k ∈ topmost under S → ∀ t ∈ T, under k t → t = k := by
    intro k hk t ht hkt
    obtain ⟨s, hs, hts⟩ : t ∈ covered under S := hST ▸ ⟨t, ht, h.refl t⟩
    have hsk := hk.2 s hs (h.trans hkt hts)
    exact h.antisymm (hsk ▸ hts) hkt
  intro k hk
  obtain ⟨t, ht, hkt⟩ : k ∈ covered under T := hST ▸ ⟨k, hk.1, h.refl k⟩
  exact ⟨hback hk t ht hkt ▸ ht, hback hk⟩

/-- Two sets have the same topmost elements just when they cover the same. -/
theorem topmost_eq_iff : topmost under S = topmost under T ↔ covered under S = covered under T := by
  constructor
  · intro hST
    rw [← h.covered_topmost, hST, h.covered_topmost]
  · intro hST
    exact Set.Subset.antisymm (h.topmost_subset_of_covered hST)
      (h.topmost_subset_of_covered hST.symm)

/-- The elements of a part may be left out that are not topmost in it. -/
theorem topmost_union_topmost : topmost under (S ∪ topmost under T) = topmost under (S ∪ T) := by
  ext k
  constructor
  · rintro ⟨hk, htop⟩
    refine ⟨hk.imp_right fun hT => hT.1, fun a ha hka => ?_⟩
    rcases ha with ha | ha
    · exact htop a (.inl ha) hka
    · obtain ⟨m, hm, ham⟩ := h.exists_topmost ha
      have hmk := htop m (.inr hm) (h.trans hka ham)
      exact h.antisymm (hmk ▸ ham) hka
  · rintro ⟨hk, htop⟩
    refine ⟨?_, fun a ha => htop a (ha.imp_right fun hT => hT.1)⟩
    exact hk.imp_right fun hT => ⟨hT, fun a ha => htop a (.inr ha)⟩

/-- A region that lies in an element changes nothing. -/
theorem topmost_insert_of_under {key c : K} (hc : c ∈ topmost under S) (hkey : under key c) :
    topmost under (insert key S) = topmost under S := by
  ext k
  constructor
  · rintro ⟨hk, htop⟩
    have hmem : k ∈ S := by
      rcases hk with rfl | hk
      · exact htop c (.inr hc.1) hkey ▸ hc.1
      · exact hk
    exact ⟨hmem, fun a ha => htop a (.inr ha)⟩
  · rintro ⟨hk, htop⟩
    refine ⟨.inr hk, fun a ha hka => ?_⟩
    rcases ha with rfl | ha
    · have hck := htop c hc.1 (h.trans hka hkey)
      exact h.antisymm (hck ▸ hkey) hka
    · exact htop a ha hka

/-- A region that lies in no element replaces those that lie in it. -/
theorem topmost_insert {key : K} (hkey : ∀ a ∈ S, ¬ under key a) :
    topmost under (insert key S) = insert key { k ∈ topmost under S | ¬ under k key } := by
  ext k
  constructor
  · rintro ⟨hk, htop⟩
    rcases hk with rfl | hk
    · exact .inl rfl
    · refine .inr ⟨⟨hk, fun a ha => htop a (.inr ha)⟩, fun hunder => ?_⟩
      exact hkey k hk (htop key (.inl rfl) hunder ▸ h.refl _)
  · rintro (rfl | ⟨⟨hk, htop⟩, hunder⟩)
    · refine ⟨.inl rfl, fun a ha hka => ?_⟩
      rcases ha with rfl | ha
      · rfl
      · exact absurd hka (hkey a ha)
    · refine ⟨.inr hk, fun a ha hka => ?_⟩
      rcases ha with rfl | ha
      · exact absurd hka hunder
      · exact htop a ha hka

end Nested

end Homebase.Foundation
