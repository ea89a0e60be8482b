import Homebase.Core.Tag

set_option autoImplicit false

/-!
# Client: who may work on a space (`client/src/coordination.rs`)

The coordination loop grants one workflow per space at a time, in the order in which
they asked.  A workflow asks by the future of `enter`: its first poll sends the
request and waits on a oneshot channel, the grant is sent on that channel, and the
poll that finds it makes the permit.  Dropping the permit tells the loop.

A future can be dropped at any point.  While it waits, the loop notices when it tries
to send the grant.  After the grant was sent and before the permit was made, nobody
notices (`Phase.abandoned`).

Session calls go through the same inbox; they do not touch the grants and are left out.
-/

namespace Homebase.Client

open Foundation Homebase.Core

/-- Where the future of one `enter` call is. -/
inductive Phase where
  /-- Its request was sent, and it waits for the grant. -/
  | waiting
  /-- The grant was sent; the future was not polled since. -/
  | granted
  /-- The permit exists. -/
  | holding
  /-- The permit was dropped. -/
  | finished
  /-- Dropped while waiting. -/
  | cancelled
  /-- Dropped after the grant was sent, before the permit existed. -/
  | abandoned
  deriving DecidableEq

/-- One `enter` call. -/
structure Entrant where
  space : SpaceId
  phase : Phase
  deriving DecidableEq

/-- `Command`; a waiter is the number of its `enter` call. -/
inductive Command where
  | enter (space : SpaceId) (waiter : Nat)
  | leave (space : SpaceId)
  deriving DecidableEq

/-- The loop, its inbox and the futures of all `enter` calls so far. -/
structure Coordination where
  inbox : List Command
  /-- `active`: the spaces that are taken, with who waits for them. -/
  active : OrdMap SpaceId (List Nat)
  entrants : List Entrant

namespace Coordination

/-- Nobody asked yet. -/
def initial : Coordination := ⟨[], OrdMap.empty, []⟩

/-- An entrant moves to another phase. -/
def setPhase (c : Coordination) (i : Nat) (phase : Phase) : Coordination :=
  { c with entrants := c.entrants.modify i fun e => { e with phase } }

/-- Entrant `i` is in a phase. -/
def IsIn (c : Coordination) (i : Nat) (space : SpaceId) (phase : Phase) : Prop :=
  c.entrants[i]? = some ⟨space, phase⟩

/-- Whether `waiter.send(())` succeeds: the future still waits. -/
def receives (c : Coordination) (i : Nat) : Bool :=
  (c.entrants[i]?).any fun e => decide (e.phase = .waiting)

/-- The loop of `grant_next` over the waiters of a space that was removed. -/
def grantFirst (c : Coordination) (space : SpaceId) : List Nat → Coordination
  | [] => c
  | waiter :: waiters =>
      if c.receives waiter then
        { c.setPhase waiter .granted with active := c.active.insert space waiters }
      else c.grantFirst space waiters

/-- `grant_next`. -/
def grantNext (c : Coordination) (space : SpaceId) : Coordination :=
  match c.active.get space with
  | none => c
  | some waiters => { c with active := c.active.erase space }.grantFirst space waiters

/-- One command, as `run` handles it. -/
def handle (c : Coordination) : Command → Coordination
  | .enter space waiter =>
      match c.active.get space with
      | some waiters => { c with active := c.active.insert space (waiters ++ [waiter]) }
      | none =>
          if c.receives waiter then
            { c.setPhase waiter .granted with active := c.active.insert space [] }
          else c
  | .leave space => c.grantNext space

/-- What can happen. -/
inductive Move where
  /-- `enter` is polled for the first time. -/
  | enter (space : SpaceId)
  /-- The loop handles its next command. -/
  | handle
  /-- The future of an `enter` call is polled again. -/
  | poll (entrant : Nat)
  /-- The future of an `enter` call is dropped. -/
  | cancel (entrant : Nat)
  /-- A permit is dropped. -/
  | drop (entrant : Nat)
  deriving DecidableEq

/-- One move; what is not possible changes nothing. -/
def move (c : Coordination) : Move → Coordination
  | .enter space =>
      { c with
        inbox := c.inbox ++ [.enter space c.entrants.length]
        entrants := c.entrants ++ [⟨space, .waiting⟩] }
  | .handle =>
      match c.inbox with
      | [] => c
      | command :: inbox => { c with inbox }.handle command
  | .poll i =>
      match c.entrants[i]? with
      | some ⟨_, .granted⟩ => c.setPhase i .holding
      | _ => c
  | .cancel i =>
      match c.entrants[i]? with
      | some ⟨_, .waiting⟩ => c.setPhase i .cancelled
      | some ⟨_, .granted⟩ => c.setPhase i .abandoned
      | _ => c
  | .drop i =>
      match c.entrants[i]? with
      | some ⟨space, .holding⟩ =>
          { c.setPhase i .finished with inbox := c.inbox ++ [.leave space] }
      | _ => c

/-- The state after a sequence of moves. -/
def after (moves : List Move) : Coordination := moves.foldl move initial

@[simp] theorem after_nil : after [] = initial := rfl

theorem after_concat (moves : List Move) (m : Move) :
    after (moves ++ [m]) = (after moves).move m := by
  simp [after, List.foldl_append]

/-! ## Phases -/

section Phases

variable {c : Coordination} {i j : Nat} {space : SpaceId} {phase : Phase}

theorem getElem?_setPhase (c : Coordination) (i j : Nat) (phase : Phase) :
    (c.setPhase i phase).entrants[j]? =
      (c.entrants[j]?).map fun e => if i = j then { e with phase } else e := by
  simp only [setPhase, List.getElem?_modify]
  rfl

/-- The only entrant that changes is the one that moves. -/
theorem isIn_setPhase_iff {next : Phase} :
    (c.setPhase i next).IsIn j space phase ↔
      if i = j then phase = next ∧ ∃ before, c.IsIn j space before else c.IsIn j space phase := by
  simp only [IsIn, getElem?_setPhase, Option.map_eq_some_iff]
  split
  · constructor
    · rintro ⟨e, he, heq⟩
      cases heq
      exact ⟨rfl, e.phase, he⟩
    · rintro ⟨rfl, before, he⟩
      exact ⟨_, he, rfl⟩
  · simp

theorem IsIn.space_eq {space' : SpaceId} {phase' : Phase} (h : c.IsIn i space phase)
    (h' : c.IsIn i space' phase') : space = space' ∧ phase = phase' := by
  rw [IsIn] at h h'
  rw [h] at h'
  cases h'
  exact ⟨rfl, rfl⟩

theorem receives_iff : c.receives i = true ↔ ∃ space, c.IsIn i space .waiting := by
  simp only [receives, IsIn]
  cases h : c.entrants[i]? with
  | none => simp
  | some e =>
    obtain ⟨space, phase⟩ := e
    simp

end Phases

end Coordination

end Homebase.Client
