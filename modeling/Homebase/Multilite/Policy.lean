import Homebase.Multilite.History

set_option autoImplicit false

/-!
# Multilite: the policy actor (`database/policy.rs`)

One thread owns the policy machine.  It hands out one lease for a workflow at a time, merges
the schedules of writes into one deadline, and hands a push to its worker when the deadline
has passed.

What the thread cannot know is read at each command: the time, which waiters still listen for
their reply, and whether the worker takes a job.
-/

namespace Homebase.Multilite

open Foundation

/-- `Instant`, in nanoseconds. -/
abbrev Instant : Type := U64
/-- `Duration`, in nanoseconds. -/
abbrev Duration : Type := U64

/-- `INITIAL_PUSH_RETRY`. -/
def initialPushRetry : Duration := 100000000
/-- `MAX_PUSH_RETRY`. -/
def maxPushRetry : Duration := 30000000000

/-- `SyncPolicy`. -/
inductive SyncPolicy where
  | localOnly
  | localFirst (writeDelay readStaleness : Duration)
  | remote
  deriving DecidableEq

/-- `AcquireMode`. -/
inductive AcquireMode where
  | ifStale
  | exclusive
  deriving DecidableEq

/-- `AcquireReply`; a lease is known by its token. -/
inductive AcquireReply where
  | fresh
  | lease (token : U64)
  deriving DecidableEq

/-- `Waiter`; its reply channel is known by a number. -/
structure Waiter where
  mode : AcquireMode
  requestedAt : Instant
  reply : Nat
  deriving DecidableEq

/-- `RefreshTransition`. -/
inductive RefreshTransition where
  | unchanged
  | pulled (pulledAt : Instant)
  | rebased (pulledAt : Option Instant)
  deriving DecidableEq

/-- `Command`, and the timeout of the mailbox. -/
inductive Command where
  | acquire (waiter : Waiter)
  | complete (token : U64) (transition : RefreshTransition)
  | schedule (deadline : Instant)
  | scheduleGroup (group : CommitSeq) (deadline : Instant)
  /-- `PushComplete(Ok(()))` or `PushComplete(Err(..))` -/
  | pushComplete (ok : Bool)
  | timeout
  deriving DecidableEq

/-- What the actor meets when it handles a command. -/
structure Surroundings where
  now : Instant
  /-- The receiver of a reply channel is still there. -/
  listens : Nat → Bool
  /-- `pushes.send(())` succeeds. -/
  handsOff : Bool

/-- `PolicyMachine`. -/
structure PolicyMachine where
  policy : SyncPolicy
  lastRefresh : Option Instant
  unappliedPull : Option Instant
  active : Option U64
  nextToken : U64
  waiters : List Waiter
  deadline : Option Instant
  retryDelay : Duration
  lastGroup : Option CommitSeq
  pushPending : Bool
  pushInFlight : Bool
  deriving DecidableEq

namespace PolicyMachine

/-- `PolicyMachine::new`. -/
def new (policy : SyncPolicy) : PolicyMachine where
  policy := policy
  lastRefresh := none
  unappliedPull := none
  active := none
  nextToken := 1
  waiters := []
  deadline := none
  retryDelay := initialPushRetry
  lastGroup := none
  pushPending := false
  pushInFlight := false

/-- `complete`. -/
def complete (m : PolicyMachine) (token : U64) (transition : RefreshTransition) : PolicyMachine :=
  if m.active ≠ some token then m
  else
    let m := match transition with
      | .unchanged => m
      | .pulled pulledAt => { m with lastRefresh := none, unappliedPull := some pulledAt }
      | .rebased none => { m with
          lastRefresh := m.unappliedPull.or m.lastRefresh
          unappliedPull := none }
      | .rebased (some pulledAt) => { m with lastRefresh := some pulledAt, unappliedPull := none }
    { m with active := none }

/-- `requires_refresh`. -/
def requiresRefresh (m : PolicyMachine) (requestedAt now : Instant) : Bool :=
  match m.policy with
  | .localOnly => false
  | .remote => m.lastRefresh.all fun refreshed => decide (refreshed < requestedAt)
  | .localFirst _ readStaleness =>
      if readStaleness = 0 then m.lastRefresh.all fun refreshed => decide (refreshed < requestedAt)
      else m.lastRefresh.all fun refreshed =>
        decide (readStaleness < now.saturatingSub refreshed)

/-- `self.next_token.wrapping_add(1).max(1)`. -/
def tokenAfter (token : U64) : U64 := max (U64.ofNat (token.val + 1)) 1

/-- The loop of `grant_next`, with the replies it sends.  A waiter that is gone gets neither. -/
def grantLoop (env : Surroundings) (m : PolicyMachine) :
    List Waiter → PolicyMachine × List (Nat × AcquireReply)
  | [] => ({ m with waiters := [] }, [])
  | waiter :: rest =>
      if waiter.mode = .ifStale ∧ m.requiresRefresh waiter.requestedAt env.now = false then
        let (m, replies) := grantLoop env m rest
        (m, if env.listens waiter.reply then (waiter.reply, .fresh) :: replies else replies)
      else
        let token := m.nextToken
        let m := { m with nextToken := tokenAfter token }
        if env.listens waiter.reply then
          ({ m with active := some token, waiters := rest }, [(waiter.reply, .lease token)])
        else grantLoop env m rest

/-- `grant_next`. -/
def grantNext (env : Surroundings) (m : PolicyMachine) :
    PolicyMachine × List (Nat × AcquireReply) :=
  if m.active.isSome ∨ m.pushPending = true ∨ m.pushInFlight = true then (m, [])
  else grantLoop env m m.waiters

/-- `enqueue`. -/
def enqueue (env : Surroundings) (m : PolicyMachine) (waiter : Waiter) :
    PolicyMachine × List (Nat × AcquireReply) :=
  grantNext env { m with waiters := m.waiters ++ [waiter] }

/-- `schedule`. -/
def schedule (m : PolicyMachine) (candidate : Instant) : PolicyMachine :=
  { m with
    deadline := some (m.deadline.elim candidate fun current => min current candidate)
    retryDelay := initialPushRetry }

/-- `schedule_group`. -/
def scheduleGroup (m : PolicyMachine) (group : CommitSeq) (deadline : Instant) : PolicyMachine :=
  if (m.lastGroup.any fun scheduled => decide (group ≤ scheduled)) = true then m
  else { m with lastGroup := some group }.schedule deadline

/-- `push_failed`. -/
def pushFailed (m : PolicyMachine) (now : Instant) : PolicyMachine :=
  { m with
    deadline := some ((now.checkedAdd m.retryDelay).getD now)
    retryDelay := min ((U64.tryFrom (m.retryDelay.val * 2)).getD maxPushRetry) maxPushRetry }

/-- `mark_push_due`. -/
def markPushDue (m : PolicyMachine) : PolicyMachine :=
  { m with deadline := none, pushPending := true }

/-- `take_push_job` would take a job. -/
def mayTakePushJob (m : PolicyMachine) : Bool :=
  m.pushPending && !m.pushInFlight && m.active.isNone

/-- `take_push_job`, when it takes one. -/
def takePushJob (m : PolicyMachine) : PolicyMachine :=
  { m with pushPending := false, pushInFlight := true }

/-- `complete_push`. -/
def completePush (m : PolicyMachine) (ok : Bool) (now : Instant) : PolicyMachine :=
  if m.pushInFlight = false then m
  else if ok then { m with pushInFlight := false, retryDelay := initialPushRetry }
  else { m with pushInFlight := false, pushPending := false }.pushFailed now

end PolicyMachine

/-- What handling a command has led to. -/
structure Reaction where
  machine : PolicyMachine
  replies : List (Nat × AcquireReply)
  /-- A push job was taken. -/
  started : Bool
  deriving DecidableEq

/-- `drive`. -/
def drive (env : Surroundings) (m : PolicyMachine) : Reaction :=
  if m.mayTakePushJob = true then
    let m := m.takePushJob
    ⟨if env.handsOff then m else { m with pushInFlight := false }.pushFailed env.now, [], true⟩
  else
    let (m, replies) := m.grantNext env
    ⟨m, replies, false⟩

/-- One round of `run_actor`. -/
def react (env : Surroundings) (m : PolicyMachine) : Command → Reaction
  | .acquire waiter =>
      let (m, replies) := m.enqueue env waiter
      ⟨m, replies, false⟩
  | .complete token transition => drive env (m.complete token transition)
  | .schedule deadline => ⟨m.schedule deadline, [], false⟩
  | .scheduleGroup group deadline => ⟨m.scheduleGroup group deadline, [], false⟩
  | .pushComplete ok => drive env (m.completePush ok env.now)
  | .timeout => drive env m.markPushDue

end Homebase.Multilite
