import Homebase.Core.WallClock

set_option autoImplicit false

/-!
# Properties: wall readings and the monotonic ruler

Readings never decrease.  Between two calls they keep up with the monotonic ruler, up to a
millisecond, exactly if the parts of a millisecond that the calls in between dropped add up to less
than two, or the system wall made up for them.  Calls that follow each other closely drop all of the
time between them.
-/

namespace Homebase.Core

open Foundation

namespace WallClock

/-- The nanoseconds of a millisecond. -/
def milli : Nat := 1000000

/-- The calls are made one after the other from an instant on. -/
def Ordered : Nat → List Call → Prop
  | _, [] => True
  | instant, call :: made => instant ≤ call.instant ∧ Ordered call.instant made

/-- The instant of the last call. -/
def lastInstant : Nat → List Call → Nat
  | instant, [] => instant
  | _, call :: made => lastInstant call.instant made

/-- The whole milliseconds the calls count, each from the one before. -/
def counted : Nat → List Call → Nat
  | _, [] => 0
  | instant, call :: made => (call.instant - instant) / milli + counted call.instant made

/-- The nanoseconds the calls drop, each from the one before. -/
def dropped : Nat → List Call → Nat
  | _, [] => 0
  | instant, call :: made => (call.instant - instant) % milli + dropped call.instant made

variable {clock : WallClock} {made : List Call} {instant : Nat}

/-- Time is counted or dropped. -/
theorem counted_add_dropped (h : Ordered instant made) :
    milli * counted instant made + dropped instant made = lastInstant instant made - instant ∧
      instant ≤ lastInstant instant made := by
  induction made generalizing instant with
  | nil => exact ⟨by simp [counted, dropped, lastInstant], le_refl _⟩
  | cons call made ih =>
    obtain ⟨hsum, hle⟩ := ih h.2
    have hfirst := Nat.div_add_mod (call.instant - instant) milli
    have hstep := h.1
    simp only [counted, dropped, lastInstant, Nat.mul_add]
    exact ⟨by omega, by omega⟩

/-- What is elapsed in whole milliseconds is counted, up to what is dropped. -/
theorem elapsed_eq (h : Ordered instant made) :
    (lastInstant instant made - instant) / milli =
      counted instant made + dropped instant made / milli := by
  rw [← (counted_add_dropped h).1, Nat.mul_add_div (by decide)]

theorem val_now (clock : WallClock) (call : Call) :
    (clock.now call.instant call.system).state.last.val =
      max (unixNow call.system).val
        (min (clock.state.last.val + (call.instant - clock.state.instant) / milli) (2 ^ 64 - 1)) := by
  have hmax : ∀ a b : U64, (max a b).val = max a.val b.val := fun a b => Fin.coe_max a b
  rw [now, hmax, floor, U64.val_saturatingAdd]
  simp only [Duration.clampedMillis, Duration.asMillis, milli]
  have := clock.state.last.isLt
  omega

/-- Readings never decrease. -/
theorem last_le_calls (clock : WallClock) (made : List Call) :
    clock.state.last ≤ (clock.calls made).state.last := by
  induction made generalizing clock with
  | nil => exact le_refl _
  | cons call made ih =>
    refine le_trans ?_ (ih (clock.now call.instant call.system))
    rw [Fin.le_def, val_now]
    have hlt := clock.state.last.isLt
    exact le_trans (le_min (Nat.le_add_right _ _) (by omega)) (le_max_right _ _)

/-- The readings are the latest of the continuations: of the last reading, and of the system wall
at each call. -/
theorem le_calls_iff {bound : Nat} (hbound : bound < 2 ^ 64) :
    bound ≤ (clock.calls made).state.last.val ↔
      bound ≤ clock.state.last.val + counted clock.state.instant made ∨
        ∃ front call rest, made = front ++ call :: rest ∧
          bound ≤ (unixNow call.system).val + counted call.instant rest := by
  induction made generalizing clock with
  | nil => simp [calls, counted]
  | cons call made ih =>
    have hrun : clock.calls (call :: made) = (clock.now call.instant call.system).calls made := rfl
    have hinstant : (clock.now call.instant call.system).state.instant = call.instant := rfl
    rw [hrun, ih, val_now, hinstant]
    constructor
    · rintro (hreach | ⟨front, later, rest, rfl, hreach⟩)
      · by_cases hwall : bound ≤ (unixNow call.system).val + counted call.instant made
        · exact .inr ⟨[], call, made, rfl, hwall⟩
        · refine .inl ?_
          rw [counted]
          omega
      · exact .inr ⟨call :: front, later, rest, rfl, hreach⟩
    · rintro (hreach | ⟨front, later, rest, hsplit, hreach⟩)
      · rw [counted] at hreach
        exact .inl (by omega)
      · cases front with
        | nil =>
          cases hsplit
          exact .inl (by omega)
        | cons first front =>
          obtain ⟨rfl, rfl⟩ := List.cons.inj hsplit
          exact .inr ⟨front, later, rest, rfl, hreach⟩

/-- The monotonic ruler is kept up with: the value fits, and what was dropped is less than two
milliseconds or the system wall made up for it at some call. -/
structure KeepsPace (clock : WallClock) (made : List Call) : Prop where
  fits : clock.state.last.val + (lastInstant clock.state.instant made - clock.state.instant) / milli ≤
    2 ^ 64
  pace : dropped clock.state.instant made < 2 * milli ∨
    ∃ front call rest, made = front ++ call :: rest ∧
      clock.state.last.val + (lastInstant clock.state.instant made - clock.state.instant) / milli ≤
        (unixNow call.system).val + counted call.instant rest + 1

/-- However many calls are made, the last reading is not before the first, and it is within a
millisecond of the first plus the whole milliseconds of monotonic time in between exactly if the
calls keep pace. -/
theorem reading_keeps_up (clock : WallClock) (made : List Call)
    (hordered : Ordered clock.state.instant made) :
    clock.state.last ≤ (clock.calls made).state.last ∧
      (clock.state.last.val + (lastInstant clock.state.instant made - clock.state.instant) / milli ≤
        (clock.calls made).state.last.val + 1 ↔ KeepsPace clock made) := by
  refine ⟨last_le_calls clock made, ?_⟩
  have helapsed := elapsed_eq hordered
  set elapsed := (lastInstant clock.state.instant made - clock.state.instant) / milli
  have hdropped : dropped clock.state.instant made < 2 * milli ↔
      dropped clock.state.instant made / milli < 2 :=
    (Nat.div_lt_iff_lt_mul (by decide)).symm
  by_cases hfits : clock.state.last.val + elapsed ≤ 2 ^ 64
  · have hbound : clock.state.last.val + elapsed - 1 < 2 ^ 64 := by omega
    have hiff := @le_calls_iff clock made _ hbound
    constructor
    · intro hkeeps
      refine ⟨hfits, ?_⟩
      rcases hiff.mp (by omega) with hreach | ⟨front, call, rest, hsplit, hreach⟩
      · exact .inl (hdropped.mpr (by omega))
      · exact .inr ⟨front, call, rest, hsplit, by omega⟩
    · rintro ⟨-, hpace | ⟨front, call, rest, hsplit, hreach⟩⟩
      · have hlt := hdropped.mp hpace
        have := hiff.mpr (.inl (by omega))
        omega
      · have := hiff.mpr (.inr ⟨front, call, rest, hsplit, by omega⟩)
        omega
  · have hlast := (clock.calls made).state.last.isLt
    exact ⟨fun hkeeps => absurd hkeeps (by omega), fun h => absurd h.fits hfits⟩

/-! ## A wall that stepped back -/

/-- A clock that read one second. -/
def stepped : WallClock := withSlop ⟨1000 * milli⟩ 0 1000000000

/-- Calls half a millisecond apart, after the system wall went back to the epoch. -/
def halves : List Call := [⟨500000, 0⟩, ⟨1000000, 0⟩, ⟨1500000, 0⟩, ⟨2000000, 0⟩]

/-- Two milliseconds pass and the clock stands still. -/
theorem reading_stands_still :
    Ordered stepped.state.instant halves ∧ stepped.state.last = 1000 ∧
      (stepped.calls halves).state.last = 1000 ∧
      ¬ stepped.state.last.val +
        (lastInstant stepped.state.instant halves - stepped.state.instant) / milli ≤
          (stepped.calls halves).state.last.val + 1 := by
  refine ⟨?_, by decide, by decide, by decide⟩
  simp [Ordered, stepped, halves, withSlop]

/-- Calls a whole number of milliseconds apart keep pace. -/
theorem reading_keeps_up_whole :
    (stepped.calls [⟨2000000, 0⟩, ⟨5000000, 0⟩]).state.last.val + 1 ≥ 1000 + 5 := by
  have hordered : Ordered stepped.state.instant [⟨2000000, 0⟩, ⟨5000000, 0⟩] := by
    simp [Ordered, stepped, withSlop]
  exact (reading_keeps_up stepped [⟨2000000, 0⟩, ⟨5000000, 0⟩] hordered).2.mpr
    ⟨by decide, .inl (by decide)⟩

end WallClock

end Homebase.Core
