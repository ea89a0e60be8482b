import Homebase.Foundation.Agree

set_option autoImplicit false

/-!
# Foundation: walks of scoped trees

A tree is given by the children of a node and a size that falls from a node to its children.  Every
node may widen a scope for what lies below it.  `Found` says that something is found at a node or
below it, at the scope of that place.

Two kinds of walker are characterised.  A test that holds of a node when it holds there or of one of
the children holds when something is found; a collector that does its part at a node and then walks
the children collects what is found.
-/

namespace Homebase.Foundation

open List

/-! ## Loops whose body may use that it runs on a member -/

section Loops

variable {α β ε : Type}

/-- A loop that stops at the first member that passes a test. -/
def anyOf (xs : List α) (test : (x : α) → x ∈ xs → Bool) : Bool :=
  xs.attach.any fun x => test x.1 x.2

/-- A loop that threads a state through the members and stops at the first error. -/
def eachOf (xs : List α) (visit : (x : α) → x ∈ xs → β → Except ε β) (b : β) : Except ε β :=
  xs.attach.foldlM (fun b x => visit x.1 x.2 b) b

@[simp] theorem anyOf_eq (xs : List α) (test : α → Bool) :
    (anyOf xs fun x _ => test x) = xs.any test := by
  rw [anyOf]
  conv_rhs => rw [← attach_map_subtype_val xs, any_map]
  rfl

@[simp] theorem eachOf_eq (xs : List α) (visit : α → β → Except ε β) (b : β) :
    eachOf xs (fun x _ => visit x) b = xs.foldlM (fun b x => visit x b) b := by
  rw [eachOf]
  conv_rhs => rw [← attach_map_subtype_val xs, List.foldlM_map]

theorem sizeOf_lt_of_mem_toList [SizeOf α] {o : Option α} {a : α} (h : a ∈ o.toList) :
    sizeOf a < sizeOf o := by
  cases o with
  | none => cases h
  | some b =>
    obtain rfl := List.mem_singleton.mp h
    simp

end Loops

theorem foldlM_flatMap {α β γ ε : Type} (xs : List α) (parts : α → List β)
    (visit : γ → β → Except ε γ) (c : γ) :
    (xs.flatMap parts).foldlM visit c = xs.foldlM (fun c x => (parts x).foldlM visit c) c := by
  induction xs generalizing c with
  | nil => rfl
  | cons x xs ih =>
    rw [flatMap_cons, foldlM_append, foldlM_cons]
    exact bind_congr fun c => ih c

/-! ## Places -/

section Places

variable {N S : Type}

/-- Something is found at a node or below it. -/
inductive Found (children : N → List N) (widen : N → S → S) (here : N → S → Prop) :
    N → S → Prop where
  | here {n : N} {s : S} (h : here n s) : Found children widen here n s
  | deeper {n c : N} {s : S} (hc : c ∈ children n) (h : Found children widen here c (widen n s)) :
      Found children widen here n s

variable {children walked hidden : N → List N} {widen : N → S → S} {here here' : N → S → Prop}
  {n : N} {s : S}

theorem found_iff : Found children widen here n s ↔
    here n s ∨ ∃ c ∈ children n, Found children widen here c (widen n s) := by
  constructor
  · rintro (h | ⟨hc, h⟩)
    · exact .inl h
    · exact .inr ⟨_, hc, h⟩
  · rintro (h | ⟨c, hc, h⟩)
    · exact .here h
    · exact .deeper hc h

theorem Found.mono (hchildren : ∀ n, walked n ⊆ children n)
    (hhere : ∀ n s, here n s → here' n s) (h : Found walked widen here n s) :
    Found children widen here' n s := by
  induction h with
  | here h => exact .here (hhere _ _ h)
  | deeper hc _ ih => exact .deeper (hchildren _ hc) ih

theorem found_exists_iff {X : Type} {here : X → N → S → Prop} :
    Found children widen (fun n s => ∃ x, here x n s) n s ↔
      ∃ x, Found children widen (here x) n s := by
  constructor
  · intro h
    induction h with
    | here h =>
      obtain ⟨x, h⟩ := h
      exact ⟨x, .here h⟩
    | deeper hc _ ih =>
      obtain ⟨x, ih⟩ := ih
      exact ⟨x, .deeper hc ih⟩
  · rintro ⟨x, h⟩
    exact h.mono (fun _ _ => id) fun n s h => ⟨x, h⟩

theorem found_and_iff {P : Prop} : Found children widen (fun n s => here n s ∧ P) n s ↔
    Found children widen here n s ∧ P := by
  constructor
  · intro h
    induction h with
    | here h => exact ⟨.here h.1, h.2⟩
    | deeper hc _ ih => exact ⟨.deeper hc ih.1, ih.2⟩
  · rintro ⟨h, hP⟩
    exact h.mono (fun _ _ => id) fun n s h => ⟨h, hP⟩

/-- Where some children are hidden, what is found is found without entering a hidden child or in a
hidden child. -/
theorem found_iff_walked_or_hidden
    (hsplit : ∀ n c, c ∈ children n ↔ c ∈ walked n ∨ c ∈ hidden n) :
    Found children widen here n s ↔ Found walked widen here n s ∨
      Found children widen
        (fun n s => ∃ c ∈ hidden n, Found children widen here c (widen n s)) n s := by
  constructor
  · intro h
    induction h with
    | here h => exact .inl (.here h)
    | @deeper n c s hc h ih =>
      rcases (hsplit n c).mp hc with hwalked | hhidden
      · exact ih.imp (.deeper hwalked) (.deeper hc)
      · exact .inr (.here ⟨c, hhidden, h⟩)
  · rintro (h | h)
    · exact h.mono (fun n c hc => (hsplit n c).mpr (.inl hc)) fun _ _ => id
    · induction h with
      | @here n s h =>
        obtain ⟨c, hc, h⟩ := h
        exact .deeper ((hsplit n c).mpr (.inr hc)) h
      | deeper hc _ ih => exact .deeper hc ih

end Places

/-! ## Walkers -/

section Walkers

variable {N S A X ε : Type} {children : N → List N} {widen : N → S → S} {size : N → Nat}
  (hsize : ∀ n, ∀ c ∈ children n, size c < size n)

include hsize

/-- A test that looks at a node and then at the children holds when something is found. -/
theorem test_iff_found {test : N → Bool} {here : N → Prop}
    (htest : ∀ n, test n = true ↔ here n ∨ ∃ c ∈ children n, test c = true) (n : N) (s : S) :
    test n = true ↔ Found children widen (fun n _ => here n) n s := by
  induction hn : size n using Nat.strong_induction_on generalizing n s with
  | _ k ih =>
    rw [htest, found_iff]
    refine or_congr Iff.rfl (exists_congr fun c => and_congr_right fun hc => ?_)
    exact ih (size c) (hn ▸ hsize n c hc) c _ rfl

variable {walk own : N → S → A → Except ε A}
  (hwalk : ∀ n s a, walk n s a =
    own n s a >>= fun a => (children n).foldlM (fun a c => walk c (widen n s) a) a)

include hwalk

variable {n : N} {s : S} {a b : A}

/-- What every node keeps, a walk keeps. -/
theorem walk_invariant {P : A → Prop} (hown : ∀ n s a b, P a → own n s a = .ok b → P b) (ha : P a)
    (h : walk n s a = .ok b) : P b := by
  induction hn : size n using Nat.strong_induction_on generalizing n s a b with
  | _ k ih =>
    rw [hwalk] at h
    obtain ⟨a', hown', hchildren⟩ := of_bind h
    refine foldlM_invariant P (fun a c b hc ha h => ?_) (hown n s a a' ha hown') hchildren
    exact ih _ (hn ▸ hsize n c hc) ha h rfl

/-- A collector that does its part at a node and then walks the children collects what is found. -/
theorem walk_collects {Has : A → X → Prop} {here : X → N → S → Prop}
    (hown : ∀ n s a b x, own n s a = .ok b → (Has b x ↔ Has a x ∨ here x n s))
    (h : walk n s a = .ok b) (x : X) : Has b x ↔ Has a x ∨ Found children widen (here x) n s := by
  induction hn : size n using Nat.strong_induction_on generalizing n s a b with
  | _ k ih =>
    rw [hwalk] at h
    obtain ⟨a', hown', hchildren⟩ := of_bind h
    have hloop : ∀ (cs : List N), (∀ c ∈ cs, c ∈ children n) → ∀ {a b : A},
        cs.foldlM (fun a c => walk c (widen n s) a) a = .ok b →
        (Has b x ↔ Has a x ∨ ∃ c ∈ cs, Found children widen (here x) c (widen n s)) := by
      intro cs
      induction cs with
      | nil =>
        intro _ a b h
        cases h
        simp
      | cons c cs ihcs =>
        intro hcs a b h
        rw [foldlM_cons] at h
        obtain ⟨a', hc, h⟩ := of_bind h
        have hlt := hn ▸ hsize n c (hcs c mem_cons_self)
        rw [ihcs (fun d hd => hcs d (mem_cons_of_mem _ hd)) h, ih _ hlt hc rfl, or_assoc]
        simp
    rw [hloop _ (fun _ => id) hchildren, hown n s a a' x hown', or_assoc, ← found_iff]

end Walkers

end Homebase.Foundation
