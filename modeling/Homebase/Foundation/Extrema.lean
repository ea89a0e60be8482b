import Homebase.Foundation.Fixed

set_option autoImplicit false

/-!
# Foundation: greatest elements of lists

Two notions of a greatest element.  `max?` of a list over any linear order
is `none` on the empty list; over appended lists it is the `max` of options.
`greatest` is the maximum of words with `0` for the empty list, characterised by
its upper bounds (`greatest_le_iff`).
-/

namespace Homebase.Foundation

open List

section Optional

variable {α β : Type} [LinearOrder α]

theorem option_max_assoc (a b c : Option α) : max (max a b) c = max a (max b c) := by
  cases a <;> cases b <;> cases c <;> simp [max_assoc]

theorem max?_append (xs ys : List α) : (xs ++ ys).max? = max xs.max? ys.max? := by
  induction xs with
  | nil => simp
  | cons x xs ih =>
    rw [cons_append, max?_cons, max?_cons, ih]
    cases xs.max? <;> cases ys.max? <;> simp [max_assoc]

/-- A running maximum of options ends with the maximum of the list. -/
theorem foldl_max_some (f : β → α) (l : List β) (init : Option α) :
    l.foldl (fun acc x => max acc (some (f x))) init = max init (l.map f).max? := by
  induction l generalizing init with
  | nil => simp
  | cons x l ih =>
    rw [foldl_cons, ih, map_cons, option_max_assoc, ← singleton_append,
      max?_append]
    rfl

/-- A bound on every element is a bound on the maximum, and conversely. -/
theorem max?_all_lt_iff {l : List α} {b : α} :
    (l.max?.all fun m => decide (m < b)) = true ↔ ∀ x ∈ l, x < b := by
  cases h : l.max? with
  | none => simp [max?_eq_none_iff.mp h]
  | some m =>
    obtain ⟨hm, hle⟩ := max?_eq_some_iff.mp h
    simp only [Option.all_some, decide_eq_true_eq]
    exact ⟨fun hlt x hx => lt_of_le_of_lt (hle x hx) hlt, fun hall => hall m hm⟩

/-- The optional maximum depends only on the members of a list. -/
theorem all_max_lt_iff {a b : Option α} {c : α} :
    ((max a b).all fun m => decide (m < c)) = true ↔
      (a.all fun m => decide (m < c)) = true ∧ (b.all fun m => decide (m < c)) = true := by
  cases a <;> cases b <;> simp

theorem max?_congr {l l' : List α} (h : ∀ x, x ∈ l ↔ x ∈ l') : l.max? = l'.max? := by
  cases hm : l.max? with
  | none =>
    have hnil : l' = [] := by
      rw [eq_nil_iff_forall_not_mem]
      intro x hx
      rw [max?_eq_none_iff.mp hm] at h
      exact not_mem_nil ((h x).mpr hx)
    rw [hnil, max?_nil]
  | some m =>
    obtain ⟨hmem, hle⟩ := max?_eq_some_iff.mp hm
    symm
    exact max?_eq_some_iff.mpr ⟨(h m).mp hmem, fun b hb => hle b ((h b).mpr hb)⟩

end Optional

/-- The greatest of a list of words, `0` for the empty list. -/
def greatest (l : List U64) : U64 := l.foldr max 0

@[simp] theorem greatest_nil : greatest [] = 0 := rfl

@[simp] theorem greatest_cons (x : U64) (l : List U64) :
    greatest (x :: l) = max x (greatest l) := rfl

variable {l : List U64}

theorem greatest_le_iff {b : U64} : greatest l ≤ b ↔ ∀ x ∈ l, x ≤ b := by
  induction l with
  | nil => simp
  | cons x l ih => simp [ih]

theorem le_greatest {x : U64} (hx : x ∈ l) : x ≤ greatest l :=
  greatest_le_iff.mp le_rfl x hx

/-- Lists with the same upper bounds have the same greatest element. -/
theorem greatest_eq_of_forall {m : U64} (h : ∀ b, m ≤ b ↔ ∀ x ∈ l, x ≤ b) : greatest l = m :=
  eq_of_forall_ge_iff fun b => greatest_le_iff.trans (h b).symm

theorem greatest_append (xs ys : List U64) :
    greatest (xs ++ ys) = max (greatest xs) (greatest ys) := by
  refine greatest_eq_of_forall fun b => ?_
  simp only [max_le_iff, greatest_le_iff, mem_append]
  exact ⟨fun h x hx => hx.elim (h.1 x) (h.2 x),
    fun h => ⟨fun x hx => h x (Or.inl hx), fun x hx => h x (Or.inr hx)⟩⟩

/-- The greatest element is positive as soon as one element is. -/
theorem greatest_ne_zero_iff : greatest l ≠ 0 ↔ ∃ x ∈ l, x ≠ 0 := by
  constructor
  · intro h
    by_contra hall
    refine h (le_antisymm (greatest_le_iff.mpr fun x hx => ?_) (Fin.zero_le _))
    by_contra hx0
    exact hall ⟨x, hx, fun hz => hx0 (hz ▸ le_rfl)⟩
  · rintro ⟨x, hx, hx0⟩ hz
    exact hx0 (le_antisymm (hz ▸ le_greatest hx) (Fin.zero_le _))

/-- On a nonempty list the optional maximum is the greatest word. -/
theorem max?_eq_some_greatest (h : l ≠ []) : l.max? = some (greatest l) := by
  induction l with
  | nil => exact absurd rfl h
  | cons x l ih =>
    cases l with
    | nil => simp [max?_cons]
    | cons y l => rw [max?_cons, ih (by simp)]; rfl

/-! ## The greatest value of a field among selected elements -/

section Top

variable {β : Type} (f : β → U64)

/-- The greatest `f x` over the elements of a list that pass a test. -/
def top (p : β → Bool) (l : List β) : U64 := greatest ((l.filter p).map f)

variable {f}

@[simp] theorem top_nil (p : β → Bool) : top f p [] = 0 := rfl

variable {p : β → Bool} {l : List β}

theorem top_le_iff {b : U64} : top f p l ≤ b ↔ ∀ x ∈ l, p x = true → f x ≤ b := by
  simp only [top, greatest_le_iff, mem_map, mem_filter, forall_exists_index, and_imp]
  exact ⟨fun h x hx hp => h _ x hx hp rfl, fun h _ x hx hp he => he ▸ h x hx hp⟩

theorem le_top_of_mem {x : β} (hx : x ∈ l) (hp : p x = true) : f x ≤ top f p l :=
  top_le_iff.mp le_rfl x hx hp

theorem top_lt_iff {b : U64} (hb : b ≠ 0) : top f p l < b ↔ ∀ x ∈ l, p x = true → f x < b := by
  constructor
  · intro h x hx hp
    exact lt_of_le_of_lt (le_top_of_mem hx hp) h
  · intro h
    have hle : top f p l ≤ b := top_le_iff.mpr fun x hx hp => (h x hx hp).le
    refine lt_of_le_of_ne hle fun heq => ?_
    -- a maximum equal to the nonzero bound is attained, which the bound forbids
    obtain ⟨y, hy, hy0⟩ := greatest_ne_zero_iff.mp (heq ▸ hb : top f p l ≠ 0)
    have hne : (l.filter p).map f ≠ [] := ne_nil_of_mem hy
    have hmem := (max?_eq_some_iff.mp (max?_eq_some_greatest hne)).1
    obtain ⟨x, hx, hfx⟩ := mem_map.mp hmem
    obtain ⟨hxl, hxp⟩ := mem_filter.mp hx
    exact absurd (h x hxl hxp) (not_lt.mpr (hfx ▸ heq ▸ le_rfl))

theorem top_append (p : β → Bool) (xs ys : List β) :
    top f p (xs ++ ys) = max (top f p xs) (top f p ys) := by
  rw [top, filter_append, map_append, greatest_append]
  rfl

theorem top_concat (p : β → Bool) (l : List β) (x : β) :
    top f p (l ++ [x]) = if p x then max (top f p l) (f x) else top f p l := by
  rw [top_append]
  cases h : p x <;> simp [top, h]

theorem top_or (p q : β → Bool) (l : List β) :
    top f (fun x => p x || q x) l = max (top f p l) (top f q l) := by
  refine eq_of_forall_ge_iff fun b => ?_
  simp only [top_le_iff, max_le_iff, Bool.or_eq_true]
  exact ⟨fun h => ⟨fun x hx hp => h x hx (Or.inl hp), fun x hx hq => h x hx (Or.inr hq)⟩,
    fun h x hx hpq => hpq.elim (h.1 x hx) (h.2 x hx)⟩

theorem top_congr {p q : β → Bool} (h : ∀ x ∈ l, p x = q x) : top f p l = top f q l := by
  rw [top, filter_congr h]
  rfl

theorem top_eq_zero_of_forall (h : ∀ x ∈ l, p x = false) : top f p l = 0 := by
  rw [top, filter_eq_nil_iff.mpr fun x hx => by simp [h x hx]]
  rfl

/-- When every selected value is positive, `0` means that nothing is selected. -/
theorem top_eq_zero_iff (hpos : ∀ x ∈ l, f x ≠ 0) : top f p l = 0 ↔ ∀ x ∈ l, p x = false := by
  constructor
  · intro h x hx
    by_contra hp
    have hle : f x ≤ 0 := h ▸ le_top_of_mem hx (by simpa using hp)
    exact hpos x hx (Fin.le_zero_iff.mp hle)
  · exact top_eq_zero_of_forall

end Top

/-! ## The last element that passes a test -/

section Latest

variable {α : Type}

/-- The last element of a list that passes a test. -/
def latest (p : α → Bool) (l : List α) : Option α := (l.filter p).getLast?

@[simp] theorem latest_nil (p : α → Bool) : latest p [] = none := rfl

theorem latest_append (p : α → Bool) (xs ys : List α) :
    latest p (xs ++ ys) = (latest p ys).or (latest p xs) := by
  rw [latest, filter_append, getLast?_append]
  rfl

theorem latest_singleton (p : α → Bool) (x : α) :
    latest p [x] = if p x then some x else none := by
  cases h : p x <;> simp [latest, h]

variable {p : α → Bool}

theorem mem_of_latest {l : List α} {x : α} (h : latest p l = some x) : x ∈ l ∧ p x = true :=
  mem_filter.mp (mem_of_getLast? h)

theorem latest_eq_none_iff {l : List α} : latest p l = none ↔ ∀ x ∈ l, p x = false := by
  simp [latest]

/-- Where one element only passes the test, it is the last. -/
theorem latest_eq_some_of_unique {l : List α} {x : α} (hx : x ∈ l) (hp : p x = true)
    (hunique : ∀ y ∈ l, p y = true → y = x) : latest p l = some x := by
  cases h : latest p l with
  | none =>
    rw [latest_eq_none_iff.mp h x hx] at hp
    cases hp
  | some y =>
    obtain ⟨hy, hpy⟩ := mem_of_latest h
    rw [hunique y hy hpy]

end Latest

end Homebase.Foundation
