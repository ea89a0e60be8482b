import Mathlib

set_option autoImplicit false

/-!
# Foundation: machines and their runs

A machine is a partial step function: what an event does to a state, if it can happen there.
`Runs.invariant` is the induction over runs; `Runs.append_iff` cuts a run where something
is said about an earlier state of it.
-/

namespace Homebase.Foundation

variable {σ ε : Type}

/-- The events happen one after the other and lead from one state to the other. -/
def Runs (step : σ → ε → Option σ) (s : σ) (events : List ε) (t : σ) : Prop :=
  events.foldlM step s = some t

namespace Runs

variable {step : σ → ε → Option σ} {s t u : σ} {e : ε} {events rest : List ε}

instance [DecidableEq σ] (step : σ → ε → Option σ) (s : σ) (events : List ε) (t : σ) :
    Decidable (Runs step s events t) := inferInstanceAs (Decidable (_ = _))

@[simp] theorem nil_iff : Runs step s [] t ↔ s = t := Option.some_inj

theorem cons_iff : Runs step s (e :: events) t ↔ ∃ u, step s e = some u ∧ Runs step u events t := by
  rw [Runs, List.foldlM_cons]
  exact Option.bind_eq_some_iff

theorem append_iff :
    Runs step s (events ++ rest) t ↔ ∃ u, Runs step s events u ∧ Runs step u rest t := by
  rw [Runs, List.foldlM_append]
  exact Option.bind_eq_some_iff

/-- What every step keeps, a run keeps. -/
theorem invariant (P : σ → Prop) (hstep : ∀ s e t, P s → step s e = some t → P t) (hs : P s)
    (h : Runs step s events t) : P t := by
  induction events generalizing s with
  | nil => exact nil_iff.mp h ▸ hs
  | cons e events ih =>
    obtain ⟨u, hu, hrest⟩ := cons_iff.mp h
    exact ih (hstep s e u hs hu) hrest

end Runs

end Homebase.Foundation
