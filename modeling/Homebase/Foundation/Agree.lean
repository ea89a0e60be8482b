import Mathlib

set_option autoImplicit false

/-!
# Foundation: fallible computations and their agreement

`Agree R x y` says that two computations with one type of errors have the same
outcome: both fail with the same error, or both succeed with related values.  It
is the notion of refinement used between a specification and the code it is
about; `Agree.bind` composes it along sequencing.
-/

namespace Homebase.Foundation

open List

/-! ## Sequences of fallible steps -/

variable {ε α β : Type}

@[simp] theorem ok_bind (a : α) (f : α → Except ε β) : (Except.ok a >>= f) = f a := rfl
@[simp] theorem error_bind (e : ε) (f : α → Except ε β) : (Except.error e >>= f) = .error e := rfl
variable {f : α → Except ε β}

/-- A sequence of two steps succeeds when both do. -/
theorem bind_eq_ok_iff {x : Except ε α} {b : β} :
    (x >>= f) = .ok b ↔ ∃ a, x = .ok a ∧ f a = .ok b := by
  cases x with
  | error e => simp
  | ok a => simp

/-- What a sequence of two steps that succeeds is made of. -/
theorem of_bind {x : Except ε α} {b : β} (h : (x >>= f) = .ok b) : ∃ a, x = .ok a ∧ f a = .ok b :=
  bind_eq_ok_iff.mp h

/-- What a step behind a guard that succeeds is made of. -/
theorem of_guard {p : Prop} [Decidable p] {e : ε} {x : Except ε α} {a : α}
    (h : (if p then .error e else x) = .ok a) : ¬ p ∧ x = .ok a := by
  split at h
  next => cases h
  next hp => exact ⟨hp, h⟩

/-- A sequence of two steps fails when the first or the second does. -/
theorem bind_eq_error_iff {x : Except ε α} {e : ε} :
    (x >>= f) = .error e ↔ x = .error e ∨ ∃ a, x = .ok a ∧ f a = .error e := by
  cases x with
  | error e' => simp
  | ok a => simp

/-- A loop whose rounds all succeed collects their values. -/
theorem mapM_eq_ok {g : α → β} {l : List α} (h : ∀ x ∈ l, f x = .ok (g x)) :
    l.mapM f = .ok (l.map g) := by
  induction l with
  | nil => rfl
  | cons x l ih =>
    rw [mapM_cons, h x mem_cons_self, ok_bind,
      ih fun y hy => h y (mem_cons_of_mem _ hy)]
    rfl

/-- What the rounds of a loop are known to yield, its values are. -/
theorem map_of_mapM {ε α β γ : Type} {f : α → Except ε β} {g : β → γ} {k : α → γ} {l : List α}
    {out : List β} (h : ∀ x b, f x = .ok b → g b = k x) (hrun : l.mapM f = .ok out) :
    out.map g = l.map k := by
  induction l generalizing out with
  | nil =>
    cases hrun
    rfl
  | cons x l ih =>
    rw [mapM_cons] at hrun
    obtain ⟨b, hb, hrun⟩ := of_bind hrun
    obtain ⟨rest, hrest, hrun⟩ := of_bind hrun
    cases hrun
    rw [map_cons, map_cons, h x b hb, ih hrest]

/-- A loop that succeeds has the value of each of its rounds. -/
theorem mem_of_mapM {l : List α} {out : List β} {x : α} (hrun : l.mapM f = .ok out) (hx : x ∈ l) :
    ∃ b ∈ out, f x = .ok b := by
  induction l generalizing out with
  | nil => cases hx
  | cons y l ih =>
    rw [mapM_cons] at hrun
    obtain ⟨b, hb, hrun⟩ := of_bind hrun
    obtain ⟨rest, hrest, hrun⟩ := of_bind hrun
    cases hrun
    rcases List.mem_cons.mp hx with rfl | hx
    · exact ⟨b, mem_cons_self, hb⟩
    · obtain ⟨b', hb', hx⟩ := ih hrest hx
      exact ⟨b', mem_cons_of_mem _ hb', hx⟩

/-- A loop without results succeeds when all its rounds do. -/
theorem forM_eq_ok_iff {ε α : Type} {f : α → Except ε Unit} {l : List α} :
    l.forM f = .ok () ↔ ∀ x ∈ l, f x = .ok () := by
  induction l with
  | nil => simp [pure, Except.pure]
  | cons x l ih =>
    change (f x >>= fun _ => l.forM f) = .ok () ↔ _
    rw [forall_mem_cons, ← ih]
    cases h : f x with
    | error e =>
      constructor
      · intro hrun
        cases hrun
      · rintro ⟨hx, -⟩
        cases hx
    | ok u => exact ⟨fun h => ⟨rfl, h⟩, And.right⟩

/-- What every round of a loop keeps, the loop keeps. -/
theorem foldlM_invariant {ε σ α : Type} {f : σ → α → Except ε σ} {l : List α} {s t : σ}
    (P : σ → Prop) (hstep : ∀ s x t, x ∈ l → P s → f s x = .ok t → P t) (hs : P s)
    (hrun : l.foldlM f s = .ok t) : P t := by
  induction l generalizing s with
  | nil =>
    cases hrun
    exact hs
  | cons x l ih =>
    rw [foldlM_cons] at hrun
    obtain ⟨u, hu, hrun⟩ := of_bind hrun
    exact ih (fun s y t hy => hstep s y t (mem_cons_of_mem _ hy))
      (hstep s x u mem_cons_self hs hu) hrun

/-- A loop whose rounds succeed, and keep a fact about the items they are through with, succeeds. -/
theorem exists_foldlM_eq_ok {ε σ α : Type} {f : σ → α → Except ε σ} {s : σ} (P : List α → σ → Prop)
    (hstep : ∀ done x s, P done s → ∃ t, f s x = .ok t ∧ P (done ++ [x]) t) (hs : P [] s)
    (l : List α) : ∃ t, l.foldlM f s = .ok t ∧ P l t := by
  induction l using List.reverseRecOn with
  | nil => exact ⟨s, rfl, hs⟩
  | append_singleton done x ih =>
    obtain ⟨u, hu, hP⟩ := ih
    obtain ⟨t, ht, hP⟩ := hstep done x u hP
    refine ⟨t, ?_, hP⟩
    rw [foldlM_append, hu, ok_bind, foldlM_cons, ht]
    rfl

/-- A loop commutes with what its rounds commute with. -/
theorem foldlM_map {ε σ τ α : Type} {f : σ → α → Except ε σ} {k : τ → α → Except ε τ} (φ : σ → τ)
    (h : ∀ s x, k (φ s) x = (f s x).map φ) (l : List α) (s : σ) :
    l.foldlM k (φ s) = (l.foldlM f s).map φ := by
  induction l generalizing s with
  | nil => rfl
  | cons x l ih =>
    rw [foldlM_cons, foldlM_cons, h]
    cases f s x with
    | error e => rfl
    | ok t => exact ih t

section Map

variable {γ δ : Type} {φ : β → γ}

/-- Computations that go on alike, up to a map of their results. -/
theorem bind_eq_map {g : α → Except ε γ} (x : Except ε α) (h : ∀ a, g a = (f a).map φ) :
    (x >>= g) = (x >>= f).map φ := by
  cases x with
  | error e => rfl
  | ok a => exact h a

theorem map_bind_eq_map {g : δ → Except ε γ} {ψ : α → δ} {x : Except ε α}
    (h : ∀ a, g (ψ a) = (f a).map φ) : (x.map ψ >>= g) = (x >>= f).map φ := by
  cases x with
  | error e => rfl
  | ok a => exact h a

theorem ite_eq_map {c : Prop} [Decidable c] {x y : Except ε β} {x' y' : Except ε γ}
    (hx : x' = x.map φ) (hy : y' = y.map φ) :
    (if c then x' else y') = (if c then x else y).map φ := by
  split
  · exact hx
  · exact hy

end Map

/-! ## Postconditions -/

/-- Whatever the computation returns has the property; it may fail. -/
def Yields (P : α → Prop) (x : Except ε α) : Prop := ∀ a, x = .ok a → P a

namespace Yields

variable {P : β → Prop} {x : Except ε α}

/-- What a computation returns is what it returned. -/
theorem self (x : Except ε α) : Yields (fun a => x = .ok a) x := fun _ h => h

theorem ok {b : β} (h : P b) : Yields P (.ok b : Except ε β) := by
  intro c hc
  cases hc
  exact h

theorem error (e : ε) : Yields P (.error e) := by
  intro b hb
  cases hb

theorem bind {Q : α → Prop} (hx : Yields Q x) (hf : ∀ a, Q a → Yields P (f a)) :
    Yields P (x >>= f) := by
  intro b hb
  obtain ⟨a, ha, hb⟩ := of_bind hb
  exact hf a (hx a ha) b hb

theorem mono {Q : β → Prop} {y : Except ε β} (hy : Yields P y) (h : ∀ b, P b → Q b) : Yields Q y :=
  fun b hb => h b (hy b hb)

/-- A step of which nothing has to be known. -/
theorem skip (hf : ∀ a, Yields P (f a)) : Yields P (x >>= f) :=
  (self x).bind fun a _ => hf a

theorem ite {c : Prop} [Decidable c] {y z : Except ε β} (hy : Yields P y) (hz : Yields P z) :
    Yields P (if c then y else z) := by
  split
  · exact hy
  · exact hz

theorem mapM {l : List α} (h : ∀ x ∈ l, Yields P (f x)) :
    Yields (fun out => ∀ b ∈ out, P b) (l.mapM f) := by
  induction l with
  | nil => exact ok (forall_mem_nil _)
  | cons x l ih =>
    rw [mapM_cons]
    refine (h x mem_cons_self).bind fun b hb => ?_
    refine (ih fun y hy => h y (mem_cons_of_mem _ hy)).bind fun rest hrest => ?_
    exact ok (forall_mem_cons.mpr ⟨hb, hrest⟩)

theorem foldlM {g : β → α → Except ε β} {l : List α} {s : β}
    (h : ∀ s, ∀ x ∈ l, P s → Yields P (g s x)) (hs : P s) : Yields P (l.foldlM g s) :=
  fun _ => foldlM_invariant P (fun s x t hx hs => h s x hx hs t) hs

end Yields

/-! ## Agreement -/

variable {ε α β γ δ : Type}

/-- Both fail alike, or both succeed with related values. -/
def Agree (R : α → β → Prop) : Except ε α → Except ε β → Prop
  | .ok a, .ok b => R a b
  | .error e, .error f => e = f
  | .ok _, .error _ => False
  | .error _, .ok _ => False

namespace Agree

variable {R : α → β → Prop} {S : γ → δ → Prop}

theorem ok {a : α} {b : β} (h : R a b) : Agree (ε := ε) R (.ok a) (.ok b) := h

theorem error (e : ε) : Agree R (.error e) (.error e) := rfl

theorem refl (x : Except ε α) : Agree (fun a b => a = b) x x := by
  cases x <;> rfl

variable {y : Except ε β}

theorem of_ok_left {a : α} (h : Agree R (.ok a) y) : ∃ b, y = .ok b ∧ R a b := by
  cases y with
  | ok b => exact ⟨b, rfl, h⟩
  | error e => exact h.elim

theorem of_error_left {e : ε} (h : Agree R (.error e) y) : y = .error e := by
  cases y with
  | ok b => exact h.elim
  | error f => exact congrArg Except.error h.symm

variable {x : Except ε α}

theorem mono {T : α → β → Prop} (h : Agree R x y) (hT : ∀ a b, R a b → T a b) : Agree T x y := by
  cases x with
  | ok a =>
    cases y with
    | ok b => exact hT a b h
    | error e => exact h
  | error e => cases y <;> exact h

/-- Sequencing keeps agreement. -/
theorem bind {f : α → Except ε γ} {g : β → Except ε δ} (h : Agree R x y)
    (hfg : ∀ a b, x = .ok a → R a b → Agree S (f a) (g b)) :
    Agree S (x >>= f) (y >>= g) := by
  cases x with
  | ok a =>
    cases y with
    | ok b => exact hfg a b rfl h
    | error e => exact h.elim
  | error e =>
    cases y with
    | ok b => exact h.elim
    | error e' => exact h

/-- A result may be renamed on the left. -/
theorem bind_ok_left {S : γ → β → Prop} {f : α → γ} (h : Agree (fun a b => S (f a) b) x y) :
    Agree S (x >>= fun a => .ok (f a)) y := by
  cases x <;> cases y <;> exact h

end Agree

end Homebase.Foundation
