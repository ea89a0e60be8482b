import Homebase.Core.Key

set_option autoImplicit false

/-!
# Core: component-wise key ranges (`core/src/range.rs`)

A range is the whole space or the subtree of one tuple prefix.  Two ranges are
nested or disjoint, so an intersection is always the narrower operand, and the
ranges that cover a given one are finitely many: `Range.covering` lists them,
widest first.
-/

namespace Homebase.Core

open Foundation List

/-- A full space or one tuple-prefix subtree. -/
inductive Range where
  | full
  | prefixed (key : Key)
  deriving DecidableEq

namespace Range

/-- `Range` in the order of its variants, which is what `derive(Ord)` gives. -/
def toWithBot : Range → WithBot Key
  | full => ⊥
  | prefixed key => ↑key

theorem toWithBot_injective : Function.Injective toWithBot := by
  intro a b h
  cases a <;> cases b <;> simp_all [toWithBot]

instance : LinearOrder Range := LinearOrder.lift' toWithBot toWithBot_injective

/-- `Range::covers_key`. -/
def coversKey : Range → Key → Bool
  | full, _ => true
  | prefixed p, key => key.startsWith p

/-- `Range::covers_range`. -/
def coversRange : Range → Range → Bool
  | full, _ => true
  | prefixed _, full => false
  | prefixed a, prefixed b => b.startsWith a

/-- `Range::overlaps`. -/
def overlaps (a b : Range) : Bool := a.coversRange b || b.coversRange a

/-- `Range::intersection`. -/
def intersection (a b : Range) : Option Range :=
  if a.coversRange b then some b
  else if b.coversRange a then some a
  else none

@[simp] theorem full_coversKey (k : Key) : full.coversKey k = true := rfl

@[simp] theorem full_coversRange (r : Range) : full.coversRange r = true := rfl

/-- A range covers a key when it covers the subtree of the key. -/
theorem coversRange_prefixed (r : Range) (k : Key) :
    r.coversRange (prefixed k) = r.coversKey k := by
  cases r <;> rfl

@[simp] theorem coversRange_self (r : Range) : r.coversRange r = true := by
  cases r <;> simp [coversRange]

theorem coversRange_trans {a b c : Range} (hab : a.coversRange b = true)
    (hbc : b.coversRange c = true) : a.coversRange c = true := by
  cases a with
  | full => rfl
  | prefixed a =>
    cases b with
    | full => simp [coversRange] at hab
    | prefixed b =>
      cases c with
      | full => simp [coversRange] at hbc
      | prefixed c => exact Key.startsWith_trans hbc hab

variable {a b : Range} {k : Key}

theorem coversKey_of_coversRange (hab : a.coversRange b = true) (hb : b.coversKey k = true) :
    a.coversKey k = true := by
  rw [← coversRange_prefixed] at hb ⊢
  exact coversRange_trans hab hb

/-- Ranges that share a key are nested. -/
theorem coversRange_or_of_coversKey (ha : a.coversKey k = true) (hb : b.coversKey k = true) :
    a.coversRange b = true ∨ b.coversRange a = true := by
  cases a with
  | full => exact Or.inl rfl
  | prefixed a =>
    cases b with
    | full => exact Or.inr rfl
    | prefixed b => exact (Key.startsWith_or ha hb).symm

theorem overlaps_iff : a.overlaps b = true ↔ a.coversRange b = true ∨ b.coversRange a = true := by
  simp [overlaps]

/-- Ranges that share a key overlap. -/
theorem overlaps_of_coversKey (ha : a.coversKey k = true) (hb : b.coversKey k = true) :
    a.overlaps b = true :=
  overlaps_iff.mpr (coversRange_or_of_coversKey ha hb)

/-- The intersection covers exactly the keys both ranges cover. -/
theorem intersection_coversKey (a b : Range) (k : Key) :
    (∃ r, a.intersection b = some r ∧ r.coversKey k = true) ↔
      a.coversKey k = true ∧ b.coversKey k = true := by
  unfold intersection
  by_cases hab : a.coversRange b = true
  · simp only [hab, if_true, Option.some.injEq, exists_eq_left']
    exact ⟨fun h => ⟨coversKey_of_coversRange hab h, h⟩, fun h => h.2⟩
  · by_cases hba : b.coversRange a = true
    · simp only [hab, hba, Bool.false_eq_true, if_false, if_true, Option.some.injEq,
        exists_eq_left']
      exact ⟨fun h => ⟨h, coversKey_of_coversRange hba h⟩, fun h => h.1⟩
    · simp only [hab, hba]
      constructor
      · rintro ⟨r, hr, -⟩
        simp at hr
      · rintro ⟨ha, hb⟩
        exact absurd (coversRange_or_of_coversKey ha hb) (by simp [hab, hba])

/-- `Full` followed by every component-wise ancestor through the exact prefix. -/
def covering : Range → List Range
  | full => [full]
  | prefixed k => full :: k.ancestors.map prefixed

theorem mem_covering_iff {r target : Range} :
    r ∈ target.covering ↔ r.coversRange target = true := by
  cases target with
  | full => cases r <;> simp [covering, coversRange]
  | prefixed k =>
    cases r with
    | full => simp [covering]
    | prefixed p => simp [covering, coversRange, Key.mem_ancestors_iff]

theorem covering_nodup (target : Range) : target.covering.Nodup := by
  cases target with
  | full => simp [covering]
  | prefixed k =>
    refine nodup_cons.mpr ⟨by simp, k.ancestors_nodup.map ?_⟩
    intro a b h
    exact (prefixed.inj h)

/-- The path ends at its target. -/
theorem covering_getLast? (target : Range) : target.covering.getLast? = some target := by
  cases target with
  | full => rfl
  | prefixed k =>
    have hpos : 0 < k.components.length := length_pos_of_ne_nil k.ne_nil
    obtain ⟨n, hn⟩ : ∃ n, k.components.length = n + 1 := ⟨_, (Nat.sub_add_cancel hpos).symm⟩
    have hlast : k.ancestors.getLast? = some k := by
      rw [Key.ancestors, getLast?_map]
      have hfin : (List.finRange k.components.length).getLast? =
          some ⟨n, by omega⟩ := by
        rw [getLast?_eq_getElem?]
        simp [hn]
      rw [hfin]
      refine congrArg some (Key.ext ?_)
      show k.components.take (n + 1) = k.components
      rw [← hn, take_length]
    have hne : k.ancestors ≠ [] := by
      intro h
      rw [h] at hlast
      simp at hlast
    obtain ⟨a, l, hl⟩ := exists_cons_of_ne_nil hne
    rw [hl] at hlast
    rw [covering, hl, map_cons, getLast?_cons_cons, ← map_cons, getLast?_map,
      hlast]
    rfl

end Range

end Homebase.Core
