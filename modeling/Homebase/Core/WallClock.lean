import Homebase.Core.Messages

set_option autoImplicit false

/-!
# Core: the self-checked wall clock (`core/src/clock.rs`)

A reading is the system wall or the monotonic continuation of the last reading, whichever is later.
Instants are nanoseconds of the monotonic ruler, the system wall is nanoseconds since the epoch and
may be anything at any time.
-/

namespace Homebase.Core

open Foundation

/-- `WallState`. -/
structure WallState where
  last : Timestamp
  instant : Nat
  poisoned : Bool
  deriving DecidableEq

/-- `WallClock`. -/
structure WallClock where
  slopMs : U64
  state : WallState
  deriving DecidableEq

/-- `unix_now`; a system wall before the epoch reads zero. -/
def unixNow (system : Int) : Timestamp := (Duration.mk system.toNat).clampedMillis

namespace WallClock

/-- `WallClock::with_slop`, at an instant with a system wall. -/
def withSlop (slop : Duration) (instant : Nat) (system : Int) : WallClock where
  slopMs := slop.clampedMillis
  state := ⟨unixNow system, instant, false⟩

/-- The monotonic continuation of the last reading. -/
def floor (clock : WallClock) (instant : Nat) : Timestamp :=
  U64.saturatingAdd clock.state.last (Duration.mk (instant - clock.state.instant)).clampedMillis

/-- `WallClock::now`: the clock after a call, whose last reading is what the call returns. -/
def now (clock : WallClock) (instant : Nat) (system : Int) : WallClock where
  slopMs := clock.slopMs
  state :=
    { last := max (unixNow system) (clock.floor instant)
      instant := instant
      poisoned := clock.state.poisoned ||
        decide (U64.saturatingAdd (unixNow system) clock.slopMs < clock.floor instant) }

/-- One call: the instant it is made at and the system wall it finds. -/
structure Call where
  instant : Nat
  system : Int
  deriving DecidableEq

/-- The clock after a sequence of calls. -/
def calls (clock : WallClock) (made : List Call) : WallClock :=
  made.foldl (fun clock call => clock.now call.instant call.system) clock

end WallClock

end Homebase.Core
