import Homebase.Foundation.Machine
import Homebase.Multilite.Policy

set_option autoImplicit false

/-!
# No scheduled write is forgotten

The policy machine is watched while commit groups become durable around it.  It never schedules
a group that is at most the last one it has scheduled, so one group stands for all of them:
whatever covers the last group covers every group before it, since groups become durable in
the order of their numbers.
-/

namespace Homebase.Multilite

open Foundation List

/-! ## What commands leave alone -/

section Frame

/-- The parts of a machine that schedule pushes are the same. -/
structure SamePushes (m m' : PolicyMachine) : Prop where
  deadline : m'.deadline = m.deadline
  lastGroup : m'.lastGroup = m.lastGroup
  pushPending : m'.pushPending = m.pushPending
  pushInFlight : m'.pushInFlight = m.pushInFlight

variable {env : Surroundings} {m : PolicyMachine}

theorem samePushes_grantLoop (waiters : List Waiter) :
    SamePushes m (m.grantLoop env waiters).1 := by
  induction waiters generalizing m with
  | nil => exact ⟨rfl, rfl, rfl, rfl⟩
  | cons waiter rest ih =>
    rw [PolicyMachine.grantLoop]
    split
    · exact ih
    · dsimp only
      split
      · exact ⟨rfl, rfl, rfl, rfl⟩
      · obtain ⟨hdeadline, hlast, hpending, hflight⟩ :=
          ih (m := { m with nextToken := PolicyMachine.tokenAfter m.nextToken })
        exact ⟨hdeadline, hlast, hpending, hflight⟩

/-- Granting a lease leaves pushes alone. -/
theorem samePushes_grantNext : SamePushes m (m.grantNext env).1 := by
  rw [PolicyMachine.grantNext]
  split
  · exact ⟨rfl, rfl, rfl, rfl⟩
  · exact samePushes_grantLoop _

theorem samePushes_enqueue (waiter : Waiter) : SamePushes m (m.enqueue env waiter).1 := by
  have h := @samePushes_grantNext env { m with waiters := m.waiters ++ [waiter] }
  exact ⟨h.deadline, h.lastGroup, h.pushPending, h.pushInFlight⟩

/-- Ending a lease leaves pushes alone. -/
theorem samePushes_complete (token : U64) (transition : RefreshTransition) :
    SamePushes m (m.complete token transition) := by
  unfold PolicyMachine.complete
  split
  · exact ⟨rfl, rfl, rfl, rfl⟩
  · rcases transition with _ | _ | (_ | _) <;> exact ⟨rfl, rfl, rfl, rfl⟩

/-- The machine when `drive` decides whether to take a job. -/
def PolicyMachine.before (m : PolicyMachine) (env : Surroundings) : Command → PolicyMachine
  | .complete token transition => m.complete token transition
  | .pushComplete ok => m.completePush ok env.now
  | .timeout => m.markPushDue
  | _ => m

/-- A job is taken only when there is none in flight and no lease is out. -/
theorem started_iff {command : Command} (h : (react env m command).started = true) :
    (m.before env command).mayTakePushJob = true ∧
      react env m command = drive env (m.before env command) := by
  cases command with
  | acquire waiter => cases h
  | schedule deadline => cases h
  | scheduleGroup group deadline => cases h
  | complete token transition =>
    refine ⟨?_, rfl⟩
    change (drive env (m.complete token transition)).started = true at h
    rw [drive] at h
    split at h
    next htake => exact htake
    · cases h
  | pushComplete ok =>
    refine ⟨?_, rfl⟩
    change (drive env (m.completePush ok env.now)).started = true at h
    rw [drive] at h
    split at h
    next htake => exact htake
    · cases h
  | timeout =>
    refine ⟨?_, rfl⟩
    change (drive env m.markPushDue).started = true at h
    rw [drive] at h
    split at h
    next htake => exact htake
    · cases h

end Frame

/-! ## The machine, watched -/

/-- A push job, as it was started. -/
structure PushJob where
  /-- The lease that was out. -/
  lease : Option U64
  /-- Another job was in flight. -/
  inFlight : Bool
  /-- The groups that were durable. -/
  durable : List CommitSeq
  deriving DecidableEq

/-- The machine with what happened so far. -/
structure Watched where
  machine : PolicyMachine
  /-- The durable groups, in the order they became durable. -/
  durable : List CommitSeq
  /-- The groups whose `ScheduleGroup` was handled. -/
  scheduled : List CommitSeq
  started : List PushJob
  /-- The jobs that have completed with success. -/
  drained : List PushJob
  deriving DecidableEq

/-- What can happen. -/
inductive Happening where
  | durable (group : CommitSeq)
  | command (env : Surroundings) (command : Command)

namespace Watched

def new (policy : SyncPolicy) : Watched := ⟨PolicyMachine.new policy, [], [], [], []⟩

/-- The groups that a command schedules. -/
def groups : Command → List CommitSeq
  | .scheduleGroup group _ => [group]
  | _ => []

/-- The job that a command ends with success. -/
def ended (w : Watched) : Command → List PushJob
  | .pushComplete true => if w.machine.pushInFlight = true then w.started.getLast?.toList else []
  | _ => []

/-- A command is handled. -/
def handle (w : Watched) (env : Surroundings) (command : Command) : Watched :=
  let m := w.machine.before env command
  let reaction := react env w.machine command
  { w with
    machine := reaction.machine
    scheduled := w.scheduled ++ groups command
    started := if reaction.started = true then
      w.started ++ [⟨m.active, m.pushInFlight, w.durable⟩] else w.started
    drained := w.drained ++ w.ended command }

/-- Groups become durable in the order of their numbers and are durable before they are
scheduled; a mailbox times out if there is a deadline. -/
def allows (w : Watched) : Happening → Bool
  | .durable group => w.durable.all fun earlier => decide (earlier < group)
  | .command _ (.scheduleGroup group _) => decide (group ∈ w.durable)
  | .command _ .timeout => w.machine.deadline.isSome
  | .command _ _ => true

/-- What happens. -/
def after (w : Watched) : Happening → Watched
  | .durable group => { w with durable := w.durable ++ [group] }
  | .command env command => w.handle env command

/-- What happens, if it can. -/
def step (w : Watched) (happening : Happening) : Option Watched :=
  if w.allows happening = true then some (w.after happening) else none

variable {w' : Watched} {happening : Happening}

theorem step_eq_some_iff {w : Watched} :
    w.step happening = some w' ↔ w.allows happening = true ∧ w' = w.after happening := by
  rw [step, Option.ite_none_right_eq_some, Option.some.injEq]
  exact and_congr_right fun _ => eq_comm

variable {env : Surroundings} {group : CommitSeq}

/-- A group is scheduled when it is durable. -/
theorem durable_of_allows {w : Watched} {command : Command}
    (h : w.allows (.command env command) = true) (hgroup : group ∈ groups command) :
    group ∈ w.durable := by
  cases command with
  | scheduleGroup scheduled deadline =>
    rw [mem_singleton.mp hgroup]
    exact of_decide_eq_true h
  | acquire waiter => exact (not_mem_nil hgroup).elim
  | complete token transition => exact (not_mem_nil hgroup).elim
  | schedule deadline => exact (not_mem_nil hgroup).elim
  | pushComplete ok => exact (not_mem_nil hgroup).elim
  | timeout => exact (not_mem_nil hgroup).elim

/-- A push that covers a group has drained or is to come. -/
def Covers (w : Watched) (group : CommitSeq) : Prop :=
  (∃ job ∈ w.drained, group ∈ job.durable) ∨ w.machine.deadline ≠ none ∨
    w.machine.pushPending = true ∨
    (w.machine.pushInFlight = true ∧ ∃ job, w.started.getLast? = some job ∧ group ∈ job.durable)

/-- What holds whenever the machine is watched. -/
structure Sound (w : Watched) : Prop where
  ordered : w.durable.Pairwise (· < ·)
  last : ∀ group ∈ w.scheduled, ∃ last, w.machine.lastGroup = some last ∧ group ≤ last
  scheduled : ∀ group ∈ w.scheduled, group ∈ w.durable
  durable : ∀ last, w.machine.lastGroup = some last → last ∈ w.durable
  started : ∀ job ∈ w.started, job.durable <+: w.durable
  drained : ∀ job ∈ w.drained, job ∈ w.started
  alone : ∀ job ∈ w.started, job.lease = none ∧ job.inFlight = false
  covers : ∀ last, w.machine.lastGroup = some last → w.Covers last

theorem sound_new (policy : SyncPolicy) : (new policy).Sound where
  ordered := .nil
  last _ h := by cases h
  scheduled _ h := by cases h
  durable _ h := by cases h
  started _ h := by cases h
  drained _ h := by cases h
  alone _ h := by cases h
  covers _ h := by cases h

/-! ### Groups stay covered -/

section Covering

variable {w : Watched} {env : Surroundings} {last : CommitSeq}

/-- What is known of pushes covers the same groups. -/
theorem Covers.same (h : w.Covers last) {m : PolicyMachine} (hsame : SamePushes w.machine m)
    {drained : List PushJob} (hdrained : w.drained ⊆ drained) :
    ({ w with machine := m, drained := drained } : Watched).Covers last := by
  obtain ⟨hdeadline, -, hpending, hflight⟩ := hsame
  rcases h with ⟨job, hjob, hmem⟩ | h | h | h
  · exact .inl ⟨job, hdrained hjob, hmem⟩
  · exact .inr (.inl (hdeadline ▸ h))
  · exact .inr (.inr (.inl (hpending.trans h)))
  · exact .inr (.inr (.inr ⟨hflight.trans h.1, h.2⟩))

/-- `complete_push` records what has drained, or sets a deadline. -/
theorem Covers.completePush (h : w.Covers last) (ok : Bool) (now : Instant) :
    ({ w with
      machine := w.machine.completePush ok now
      drained := w.drained ++ w.ended (.pushComplete ok) } : Watched).Covers last := by
  cases hflight : w.machine.pushInFlight with
  | false =>
    have hsame : w.machine.completePush ok now = w.machine := by
      rw [PolicyMachine.completePush, if_pos hflight]
    rw [hsame]
    exact h.same ⟨rfl, rfl, rfl, rfl⟩ (subset_append_left _ _)
  | true =>
    have hnot : ¬ w.machine.pushInFlight = false := by simp [hflight]
    cases ok with
    | false =>
      refine .inr (.inl ?_)
      rw [PolicyMachine.completePush, if_neg hnot]
      exact Option.some_ne_none _
    | true =>
      have hended : w.ended (.pushComplete true) = w.started.getLast?.toList := if_pos hflight
      rw [PolicyMachine.completePush, if_neg hnot, hended]
      rcases h with ⟨job, hjob, hmem⟩ | h | h | ⟨-, job, hjob, hmem⟩
      · exact .inl ⟨job, mem_append_left _ hjob, hmem⟩
      · exact .inr (.inl h)
      · exact .inr (.inr (.inl h))
      · refine .inl ⟨job, mem_append_right _ ?_, hmem⟩
        rw [hjob]
        exact mem_singleton_self job

/-- A job that is taken starts with every durable group. -/
theorem Covers.drive (h : w.Covers last) (hdurable : last ∈ w.durable) :
    ({ w with
      machine := (drive env w.machine).machine
      started := if (drive env w.machine).started = true then
        w.started ++ [⟨w.machine.active, w.machine.pushInFlight, w.durable⟩]
        else w.started } : Watched).Covers last := by
  rw [Multilite.drive]
  split
  · cases env.handsOff with
    | true =>
      refine .inr (.inr (.inr ⟨rfl, _, getLast?_concat, hdurable⟩))
    | false => exact .inr (.inl (Option.some_ne_none _))
  · exact h.same samePushes_grantNext (List.Subset.refl _)

/-- Handling a command keeps a durable group covered. -/
theorem Covers.handle (h : w.Covers last) (hdurable : last ∈ w.durable) (command : Command) :
    (w.handle env command).Covers last := by
  cases command with
  | acquire waiter => exact h.same (samePushes_enqueue waiter) (subset_append_left _ _)
  | schedule deadline => exact .inr (.inl (Option.some_ne_none _))
  | scheduleGroup group deadline =>
    change (Watched.Covers { w with
      machine := w.machine.scheduleGroup group deadline
      scheduled := w.scheduled ++ [group]
      drained := w.drained ++ [] } last)
    rw [PolicyMachine.scheduleGroup]
    split
    · exact h.same ⟨rfl, rfl, rfl, rfl⟩ (subset_append_left _ _)
    · exact .inr (.inl (Option.some_ne_none _))
  | complete token transition =>
    exact (h.same (samePushes_complete token transition)
      (subset_append_left _ (w.ended (.complete token transition)))).drive hdurable
  | pushComplete ok => exact (h.completePush ok env.now).drive hdurable
  | timeout =>
    have hdue : ({ w with
        machine := w.machine.markPushDue
        drained := w.drained ++ w.ended .timeout } : Watched).Covers last :=
      .inr (.inr (.inl rfl))
    exact hdue.drive hdurable

end Covering

/-! ### The last group -/

section Last

variable {env : Surroundings} {m : PolicyMachine}

theorem lastGroup_drive : (drive env m).machine.lastGroup = m.lastGroup := by
  rw [drive]
  split
  · cases env.handsOff <;> rfl
  · exact samePushes_grantNext.lastGroup

theorem lastGroup_completePush (ok : Bool) (now : Instant) :
    (m.completePush ok now).lastGroup = m.lastGroup := by
  rw [PolicyMachine.completePush]
  split
  · rfl
  · cases ok <;> rfl

/-- The last group is at least as late as before and as every group that is scheduled. -/
theorem lastGroup_react (env : Surroundings) (m : PolicyMachine) (command : Command) :
    ((react env m command).machine.lastGroup = m.lastGroup ∧ groups command = []) ∨
      ∃ group last, groups command = [group] ∧
        (react env m command).machine.lastGroup = some last ∧ group ≤ last ∧
        (last = group ∨ m.lastGroup = some last) ∧
        ∀ earlier, m.lastGroup = some earlier → earlier ≤ last := by
  cases command with
  | acquire waiter => exact .inl ⟨(samePushes_enqueue waiter).lastGroup, rfl⟩
  | schedule deadline => exact .inl ⟨rfl, rfl⟩
  | complete token transition =>
    exact .inl ⟨lastGroup_drive.trans (samePushes_complete token transition).lastGroup, rfl⟩
  | pushComplete ok => exact .inl ⟨lastGroup_drive.trans (lastGroup_completePush ok env.now), rfl⟩
  | timeout => exact .inl ⟨lastGroup_drive, rfl⟩
  | scheduleGroup group deadline =>
    right
    change ∃ group' last, [group] = [group'] ∧
      (m.scheduleGroup group deadline).lastGroup = some last ∧ group' ≤ last ∧
      (last = group' ∨ m.lastGroup = some last) ∧ ∀ earlier, m.lastGroup = some earlier → earlier ≤ last
    rw [PolicyMachine.scheduleGroup]
    cases hlast : m.lastGroup with
    | none =>
      refine ⟨group, group, rfl, rfl, le_refl _, .inl rfl, fun _ h => ?_⟩
      cases h
    | some scheduled =>
      by_cases hle : group ≤ scheduled
      · refine ⟨group, scheduled, rfl, ?_, hle, .inr rfl, fun earlier h => ?_⟩
        · rw [Option.any_some, if_pos (decide_eq_true hle), hlast]
        · exact le_of_eq (Option.some.inj h).symm
      · refine ⟨group, group, rfl, ?_, le_refl _, .inl rfl, fun earlier h => ?_⟩
        · rw [Option.any_some, if_neg fun h => hle (of_decide_eq_true h)]
          rfl
        · exact Option.some.inj h ▸ le_of_not_ge hle

end Last

/-! ### Every state -/

variable {w : Watched} {command : Command} {job : PushJob}

theorem started_of_ended (h : job ∈ w.ended command) : job ∈ w.started := by
  cases command with
  | pushComplete ok =>
    cases ok with
    | false => exact (not_mem_nil h).elim
    | true =>
      change job ∈ (if w.machine.pushInFlight = true then w.started.getLast?.toList else []) at h
      split at h
      · exact mem_of_getLast? (Option.mem_toList.mp h)
      · exact (not_mem_nil h).elim
  | acquire waiter => exact (not_mem_nil h).elim
  | complete token transition => exact (not_mem_nil h).elim
  | schedule deadline => exact (not_mem_nil h).elim
  | scheduleGroup group deadline => exact (not_mem_nil h).elim
  | timeout => exact (not_mem_nil h).elim

/-- The groups scheduled after a command is handled. -/
theorem Sound.last_handle (h : w.Sound) (env : Surroundings) (command : Command) :
    ∀ group ∈ (w.handle env command).scheduled,
      ∃ last, (w.handle env command).machine.lastGroup = some last ∧ group ≤ last := by
  intro group hgroup
  change ∃ last, (react env w.machine command).machine.lastGroup = some last ∧ group ≤ last
  rcases lastGroup_react env w.machine command with ⟨hsame, hnone⟩ |
    ⟨group', last, hgroups, hlast, hle, -, hearlier⟩
  · rcases mem_append.mp hgroup with hgroup | hgroup
    · obtain ⟨last, hlast, hle⟩ := h.last group hgroup
      exact ⟨last, hsame.trans hlast, hle⟩
    · rw [hnone] at hgroup
      exact (not_mem_nil hgroup).elim
  · refine ⟨last, hlast, ?_⟩
    rcases mem_append.mp hgroup with hgroup | hgroup
    · obtain ⟨earlier, hbefore, hle'⟩ := h.last group hgroup
      exact le_trans hle' (hearlier earlier hbefore)
    · rw [hgroups] at hgroup
      rw [mem_singleton.mp hgroup]
      exact hle

/-- The jobs started after a command is handled. -/
theorem Sound.started_handle (h : w.Sound) (env : Surroundings) (command : Command) :
    ∀ job ∈ (w.handle env command).started,
      job.durable <+: w.durable ∧ job.lease = none ∧ job.inFlight = false := by
  intro job hjob
  have hold : ∀ job ∈ w.started,
      job.durable <+: w.durable ∧ job.lease = none ∧ job.inFlight = false :=
    fun job hjob => ⟨h.started job hjob, h.alone job hjob⟩
  change job ∈ (if (react env w.machine command).started = true then _ else w.started) at hjob
  split at hjob
  next hstarted =>
    rcases mem_append.mp hjob with hjob | hjob
    · exact hold job hjob
    · cases mem_singleton.mp hjob
      obtain ⟨htake, -⟩ := started_iff hstarted
      rw [PolicyMachine.mayTakePushJob, Bool.and_eq_true, Bool.and_eq_true, Bool.not_eq_true',
        Option.isNone_iff_eq_none] at htake
      exact ⟨prefix_refl _, htake.2, htake.1.2⟩
  · exact hold job hjob

/-- The last group after a command is handled is durable and covered. -/
theorem Sound.covers_handle (h : w.Sound) (hgroups : ∀ group ∈ groups command, group ∈ w.durable) :
    ∀ last, (w.handle env command).machine.lastGroup = some last →
      last ∈ w.durable ∧ (w.handle env command).Covers last := by
  intro last hlast
  change (react env w.machine command).machine.lastGroup = some last at hlast
  have hkept : w.machine.lastGroup = some last →
      last ∈ w.durable ∧ (w.handle env command).Covers last :=
    fun hbefore => ⟨h.durable last hbefore, (h.covers last hbefore).handle (h.durable last hbefore) _⟩
  rcases lastGroup_react env w.machine command with ⟨hsame, -⟩ |
    ⟨group, last', hgroup, hlast', -, hnew, -⟩
  · exact hkept (hsame.symm.trans hlast)
  · cases hlast'.symm.trans hlast
    rcases hnew with rfl | hbefore
    · refine ⟨hgroups last (by rw [hgroup]; exact mem_singleton_self _), ?_⟩
      -- only a group that was not yet scheduled becomes the last one
      cases command with
      | scheduleGroup group deadline =>
        obtain rfl : group = last := singleton_injective hgroup
        by_cases hbefore : w.machine.lastGroup = some group
        · exact (hkept hbefore).2
        · refine .inr (.inl ?_)
          change (w.machine.scheduleGroup group deadline).deadline ≠ none
          change (w.machine.scheduleGroup group deadline).lastGroup = some group at hlast
          rw [PolicyMachine.scheduleGroup] at hlast ⊢
          split
          next hskip =>
            rw [if_pos hskip] at hlast
            exact absurd hlast hbefore
          · exact Option.some_ne_none _
      | acquire waiter => cases hgroup
      | complete token transition => cases hgroup
      | schedule deadline => cases hgroup
      | pushComplete ok => cases hgroup
      | timeout => cases hgroup
    · exact hkept hbefore

theorem Sound.handle (h : w.Sound) (hgroups : ∀ group ∈ groups command, group ∈ w.durable) :
    (w.handle env command).Sound where
  ordered := h.ordered
  last := h.last_handle env command
  scheduled group hgroup := by
    rcases mem_append.mp hgroup with hgroup | hgroup
    · exact h.scheduled group hgroup
    · exact hgroups group hgroup
  durable last hlast := (h.covers_handle hgroups last hlast).1
  started job hjob := (h.started_handle env command job hjob).1
  drained job hjob := by
    have hstarted : ∀ job ∈ w.started, job ∈ (w.handle env command).started := by
      intro job hjob
      change job ∈ (if (react env w.machine command).started = true then _ else w.started)
      split
      · exact mem_append_left _ hjob
      · exact hjob
    rcases mem_append.mp hjob with hjob | hjob
    · exact hstarted job (h.drained job hjob)
    · exact hstarted job (started_of_ended hjob)
  alone job hjob := (h.started_handle env command job hjob).2
  covers last hlast := (h.covers_handle hgroups last hlast).2

theorem Sound.step {w : Watched} (h : w.Sound) (hstep : w.step happening = some w') : w'.Sound := by
  obtain ⟨hallows, rfl⟩ := step_eq_some_iff.mp hstep
  cases happening with
  | command env command => exact h.handle fun _ hgroup => durable_of_allows hallows hgroup
  | durable group =>
    have hlater : ∀ earlier ∈ w.durable, earlier < group :=
      fun earlier hearlier => of_decide_eq_true (all_eq_true.mp hallows earlier hearlier)
    refine ⟨?_, h.last, ?_, ?_, ?_, h.drained, h.alone, h.covers⟩
    · refine pairwise_append.mpr ⟨h.ordered, pairwise_singleton _ _, ?_⟩
      intro earlier hearlier other hother
      rw [mem_singleton.mp hother]
      exact hlater earlier hearlier
    · exact fun other hother => mem_append_left _ (h.scheduled other hother)
    · exact fun last hlast => mem_append_left _ (h.durable last hlast)
    · exact fun job hjob => (h.started job hjob).trans (prefix_append _ _)

theorem Sound.run {policy : SyncPolicy} {happenings : List Happening}
    (h : Runs Watched.step (new policy) happenings w) : w.Sound :=
  h.invariant Sound (fun _ _ _ => Sound.step) (sound_new policy)

/-- A job that started with a durable group started with every earlier one. -/
theorem Sound.mem_of_le (h : w.Sound) (hjob : job.durable <+: w.durable) {last : CommitSeq}
    (hlast : last ∈ job.durable) (hgroup : group ∈ w.durable) (hle : group ≤ last) :
    group ∈ job.durable := by
  obtain ⟨later, hlater⟩ := hjob
  rw [← hlater] at hgroup
  rcases mem_append.mp hgroup with hgroup | hgroup
  · exact hgroup
  · have hordered := h.ordered
    rw [← hlater, pairwise_append] at hordered
    exact absurd (hordered.2.2 last hlast group hgroup) (not_lt.mpr hle)

end Watched

open Watched in
/-- In every run, a group whose schedule was handled has been drained by a push that started
when it was durable, or such a push is in flight, or one is pending or has a deadline; and no
push was started while a lease was out or another push was in flight. -/
theorem no_scheduled_write_forgotten (policy : SyncPolicy) (happenings : List Happening)
    (w : Watched) (hrun : Runs Watched.step (Watched.new policy) happenings w) :
    (∀ group ∈ w.scheduled, w.Covers group) ∧
      ∀ job ∈ w.started, job.lease = none ∧ job.inFlight = false := by
  have hsound := Sound.run hrun
  refine ⟨fun group hgroup => ?_, hsound.alone⟩
  obtain ⟨last, hlast, hle⟩ := hsound.last group hgroup
  have hdurable := hsound.scheduled group hgroup
  -- what covers the last group covers this one, which is no later
  rcases hsound.covers last hlast with ⟨job, hjob, hmem⟩ | h | h | ⟨hflight, job, hjob, hmem⟩
  · have hprefix := hsound.started job (hsound.drained job hjob)
    exact .inl ⟨job, hjob, hsound.mem_of_le hprefix hmem hdurable hle⟩
  · exact .inr (.inl h)
  · exact .inr (.inr (.inl h))
  · have hprefix := hsound.started job (mem_of_getLast? hjob)
    exact .inr (.inr (.inr ⟨hflight, job, hjob, hsound.mem_of_le hprefix hmem hdurable hle⟩))

/-- Surroundings in which everything works. -/
def calm : Surroundings := ⟨0, fun _ => true, true⟩

/-- Two groups were scheduled, the later one first, and one push has drained both. -/
def drainedOnce : Watched :=
  ⟨{ PolicyMachine.new .remote with lastGroup := some 2 }, [1, 2], [2, 1],
    [⟨none, false, [1, 2]⟩], [⟨none, false, [1, 2]⟩]⟩

theorem no_scheduled_write_forgotten_once :
    (∀ group ∈ drainedOnce.scheduled, drainedOnce.Covers group) ∧
      ∀ job ∈ drainedOnce.started, job.lease = none ∧ job.inFlight = false :=
  no_scheduled_write_forgotten .remote
    [.durable 1, .durable 2, .command calm (.scheduleGroup 2 5), .command calm (.scheduleGroup 1 3),
      .command calm .timeout, .command calm (.pushComplete true)] drainedOnce (by decide +kernel)

end Homebase.Multilite
