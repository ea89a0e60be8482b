import Mathlib

set_option autoImplicit false

/-!
# Ranges of an unbounded array

An array without an end is a function from positions.  A `window` is what one read of it returns:
so many entries from a start on.  A loop that copies an array piece by piece keeps a window, and
`window_add` is its step.
-/

namespace Homebase.Foundation

open List

variable {α : Type}

/-- The entries of an array from a start on. -/
def window (f : Nat → α) (start count : Nat) : List α :=
  (List.range count).map fun i => f (start + i)

@[simp] theorem length_window (f : Nat → α) (start count : Nat) :
    (window f start count).length = count := by
  simp [window]

@[simp] theorem window_zero (f : Nat → α) (start : Nat) : window f start 0 = [] := rfl

theorem getElem?_window (f : Nat → α) (start count i : Nat) :
    (window f start count)[i]? = if i < count then some (f (start + i)) else none := by
  rw [window, getElem?_map]
  by_cases h : i < count
  · rw [getElem?_range h, if_pos h]
    rfl
  · rw [getElem?_eq_none (by rw [length_range]; omega), if_neg h]
    rfl

variable {start count i : Nat}

theorem getD_window (f : Nat → α) (h : i < count) (default : α) :
    (window f start count).getD i default = f (start + i) := by
  rw [getD_eq_getElem?_getD, getElem?_window, if_pos h]
  rfl

/-- Two pieces that follow each other are one piece. -/
theorem window_add (f : Nat → α) (start first second : Nat) :
    window f start first ++ window f (start + first) second = window f start (first + second) := by
  rw [window, window, window, range_add, map_append, map_map]
  congr 1
  refine map_congr_left fun i _ => ?_
  rw [Function.comp_apply, Nat.add_assoc]

variable {f : Nat → α}

theorem window_congr {g : Nat → α} (h : ∀ i < count, f (start + i) = g (start + i)) :
    window f start count = window g start count :=
  map_congr_left fun i hi => h i (mem_range.mp hi)

/-- A list is a window when it has its length and its entries. -/
theorem eq_window {l : List α} (hlen : l.length = count) (default : α)
    (h : ∀ i < count, l.getD i default = f (start + i)) : l = window f start count := by
  refine ext_getElem? fun i => ?_
  rw [getElem?_window]
  by_cases hi : i < count
  · have hget := h i hi
    rw [getD_eq_getElem?_getD, getElem?_eq_getElem (hlen ▸ hi), Option.getD_some] at hget
    rw [if_pos hi, getElem?_eq_getElem (hlen ▸ hi), hget]
  · rw [if_neg hi, getElem?_eq_none (by omega)]

variable {position size : Nat}

/-- A step inside a page stays in the page. -/
theorem div_add_within (h : position % size + i < size) :
    (position + i) / size = position / size := by
  have hsplit := Nat.div_add_mod position size
  refine Nat.div_eq_of_lt_le ?_ ?_
  · rw [Nat.mul_comm]
    omega
  · rw [Nat.mul_comm, Nat.mul_add]
    omega

theorem mod_add_within (h : position % size + i < size) :
    (position + i) % size = position % size + i := by
  have hsplit := Nat.div_add_mod position size
  have hsplit' := Nat.div_add_mod (position + i) size
  rw [div_add_within h] at hsplit'
  omega

theorem window_const (x : α) (start count : Nat) :
    window (fun _ => x) start count = List.replicate count x := by
  simp [window, map_const']

end Homebase.Foundation
