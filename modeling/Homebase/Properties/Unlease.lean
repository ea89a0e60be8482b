import Homebase.Client.World
import Homebase.Properties.Leases

set_option autoImplicit false

/-!
# Properties: releasing under queued assertions

A checked submission waits under the protection of a live lease that covers each of
its assertions.  `unlease_checked` refuses a release only if one of the released
leases is usable, so it guards the last protection of an assertion exactly when one of
the released leases that give it has its barrier applied (`GuardsApplied`).
-/

namespace Homebase.Properties

open Foundation Homebase.Core Server Client List

/-! ## One call -/

/-- What a primitive does at one instant of the client's clock. -/
def Instant (sha256 : Bytes → ByteArr 32) (now : HybridTimestamp) (op : Primitive) (s : Shared)
    (reply : Reply op) (t : Shared) : Prop :=
  ∃ choice : Choice, choice.stamp = now ∧ execute sha256 choice op s = (reply, t)

/-- A lease protects an assertion: held, not forgotten, live, and covering it. -/
structure Protects (now : HybridTimestamp) (held : HeldLease) (assertion : RangeAssert) : Prop where
  unforgotten : held.forgotten = false
  live : leaseLive held now = true
  covering : assertion.assertPrefix.startsWith held.lease.leasePrefix = true

/-- Every assertion of an active checked submission is protected. -/
def AllProtected (now : HybridTimestamp) (s : LoadedSpace) : Prop :=
  ∀ p ∈ s.checkedAsserts, ∃ held ∈ s.leases.values, Protects now held p.2

/-- An assertion whose protection is released as a whole is protected by a lease whose
barrier is applied. -/
def GuardsApplied (now : HybridTimestamp) (ids : List LeaseId) (s : LoadedSpace) : Prop :=
  ∀ p ∈ s.checkedAsserts,
    (∀ held ∈ s.leases.values, Protects now held p.2 → held.lease.id ∈ ids) →
    ∃ held ∈ s.leases.values, held.lease.id ∈ ids ∧ Protects now held p.2 ∧
      held.lease.barrier < s.admitCursors.neck

section Call

variable {sha256 : Bytes → ByteArr 32} {now : HybridTimestamp} {device : DeviceId}
  {space : SpaceId} {ids : List LeaseId} {s t : Shared}

/-- Any choice of the surroundings at an instant. -/
def choiceAt (now : HybridTimestamp) (fate : Fate) : Choice := ⟨now, none, 1, fate⟩

variable {held : HeldLease} {assertion : RangeAssert}

theorem protects_iff :
    Protects now held assertion ↔ held.forgotten = false ∧ leaseLive held now = true ∧
      assertion.assertPrefix.startsWith held.lease.leasePrefix = true :=
  ⟨fun h => ⟨h.1, h.2, h.3⟩, fun h => ⟨h.1, h.2.1, h.2.2⟩⟩

/-- A usable lease that covers an assertion protects it, and its barrier is applied. -/
theorem usable_iff {neck : AdmissionSeq} :
    assertion.assertPrefix.startsWith held.lease.leasePrefix = true ∧
        leaseUsable held now neck = true ↔
      Protects now held assertion ∧ held.lease.barrier < neck := by
  simp only [leaseUsable, protects_iff, Bool.and_eq_true, Bool.not_eq_true', decide_eq_true_eq]
  tauto

/-- Reading the admit cursors changes nothing. -/
theorem eval_leaseUsableForHeld_iff {usable : Bool} :
    Prog.Eval (Instant sha256 now) (leaseUsableForHeld space held now).run s (.ok usable) t ↔
      usable = leaseUsable held now (s.records space).admitWindow.neck ∧ t = s := by
  rw [leaseUsableForHeld, eval_bind_ok_iff]
  constructor
  · rintro ⟨cursors, s₁, hask, hrest⟩
    obtain ⟨choice, -, hexec⟩ := eval_ask_iff.mp hask
    cases hexec
    rw [pure_run, Prog.eval_done_iff] at hrest
    exact ⟨Except.ok.inj hrest.1, hrest.2⟩
  · rintro ⟨rfl, rfl⟩
    exact ⟨_, t, eval_ask_iff.mpr ⟨choiceAt now .delayed, rfl, rfl⟩, by simp⟩

variable {releasing : List HeldLease}

/-- The guard found among released leases. -/
theorem eval_releasedGuard_iff {guard : Option LeaseId} :
    Prog.Eval (Instant sha256 now) (releasedGuard space now assertion releasing).run s
        (.ok guard) t ↔
      guard = (releasing.find? fun held =>
          assertion.assertPrefix.startsWith held.lease.leasePrefix &&
            leaseUsable held now (s.records space).admitWindow.neck).map
        (fun held => held.lease.id) ∧ t = s := by
  induction releasing with
  | nil => simp [releasedGuard]
  | cons held rest ih =>
    rw [releasedGuard, find?_cons]
    by_cases hcovers : assertion.assertPrefix.startsWith held.lease.leasePrefix = true
    · rw [if_neg (by simp [hcovers]), eval_bind_ok_iff]
      simp only [eval_leaseUsableForHeld_iff, hcovers, Bool.true_and]
      constructor
      · rintro ⟨usable, s₁, ⟨rfl, rfl⟩, hrest⟩
        split at hrest
        next huse => simpa [huse] using hrest
        next huse => simpa [huse] using ih.mp hrest
      · rintro ⟨rfl, rfl⟩
        refine ⟨_, t, ⟨rfl, rfl⟩, ?_⟩
        split
        next huse => simp [huse]
        next huse => exact ih.mpr (by simp [huse])
    · rw [if_pos (by simpa using hcovers), ih]
      simp [hcovers]

variable {leases : List HeldLease}

/-- The check passes if every assertion with a usable released lease is replaced. -/
theorem eval_rejectUnlease_iff {asserts : List (DeviceSeq × RangeAssert)} :
    Prog.Eval (Instant sha256 now) (rejectUnlease space now releasing leases ids asserts).run s
        (.ok ()) t ↔
      (∀ p ∈ asserts, (∃ held ∈ releasing, Protects now held p.2 ∧
          held.lease.barrier < (s.records space).admitWindow.neck) →
        hasReplacement leases ids now p.2 = true) ∧ t = s := by
  induction asserts with
  | nil => simp [rejectUnlease]
  | cons p rest ih =>
    obtain ⟨seq, assertion⟩ := p
    rw [rejectUnlease, eval_bind_ok_iff, forall_mem_cons]
    simp only [eval_releasedGuard_iff]
    have hguard : (∃ held ∈ releasing, Protects now held assertion ∧
          held.lease.barrier < (s.records space).admitWindow.neck) ↔
        ((releasing.find? fun held =>
          assertion.assertPrefix.startsWith held.lease.leasePrefix &&
            leaseUsable held now (s.records space).admitWindow.neck).map
              fun held => held.lease.id).isSome = true := by
      simp only [Option.isSome_map, find?_isSome, Bool.and_eq_true, usable_iff]
    rw [hguard]
    constructor
    · rintro ⟨guard, s₁, ⟨rfl, rfl⟩, hrest⟩
      split at hrest
      next hnone => simpa [hnone] using ih.mp hrest
      next lease hsome =>
        split at hrest
        next hreplaced =>
          obtain ⟨hall, ht⟩ := ih.mp hrest
          exact ⟨⟨fun _ => hreplaced, hall⟩, ht⟩
        next => simp at hrest
    · rintro ⟨⟨hfirst, hall⟩, rfl⟩
      refine ⟨_, t, ⟨rfl, rfl⟩, ?_⟩
      split
      next => exact ih.mpr ⟨hall, rfl⟩
      next lease hsome =>
        rw [if_pos (hfirst (by rw [hsome]; rfl))]
        exact ih.mpr ⟨hall, rfl⟩

/-- What a check that passed found. -/
def Accepts (now : HybridTimestamp) (ids : List LeaseId) (s : LoadedSpace) : Prop :=
  ∀ p ∈ s.checkedAsserts,
    (∃ held ∈ s.leases.values, held.lease.id ∈ ids ∧ Protects now held p.2 ∧
      held.lease.barrier < s.admitCursors.neck) →
    ∃ held ∈ s.leases.values, held.lease.id ∉ ids ∧ Protects now held p.2

theorem hasReplacement_iff :
    hasReplacement leases ids now assertion = true ↔
      ∃ held ∈ leases, held.lease.id ∉ ids ∧ Protects now held assertion := by
  simp only [hasReplacement, any_eq_true, Bool.and_eq_true, Bool.not_eq_true',
    decide_eq_false_iff_not, protects_iff]
  refine exists_congr fun held => and_congr_right fun _ => ?_
  tauto

variable {r : SpaceRecords}

/-- A loaded lease is the one loaded under its id. -/
theorem mem_load_leases_iff :
    held ∈ r.load.leases.values ↔ r.load.leases.get held.lease.id = some held := by
  rw [OrdMap.mem_values_iff]
  refine ⟨fun ⟨id, hget⟩ => ?_, fun h => ⟨_, h⟩⟩
  have hid := find?_some (r.get_load_leases id ▸ hget)
  rw [decide_eq_true_eq] at hid
  rwa [hid]

/-- The leases among `ids` that are loaded. -/
theorem mem_releasing_iff : held ∈ ids.filterMap r.load.leases.get ↔
      held ∈ r.load.leases.values ∧ held.lease.id ∈ ids := by
  rw [mem_filterMap, mem_load_leases_iff]
  constructor
  · rintro ⟨id, hid, hget⟩
    have heq := find?_some (r.get_load_leases id ▸ hget)
    rw [decide_eq_true_eq] at heq
    rw [heq]
    exact ⟨hget, hid⟩
  · rintro ⟨hget, hid⟩
    exact ⟨_, hid, hget⟩

/-- A space that is not in the store has no submissions. -/
theorem checkedAsserts_of_absent (h : s.store.load.spaces.get space = none) :
    (s.records space).load.checkedAsserts = [] := by
  rw [MetaStore.load, OrdMap.get_mapValues, Option.map_eq_none_iff] at h
  rw [Shared.records, MetaStore.records, h]
  rfl

theorem get_load_spaces {loaded : LoadedSpace} (h : s.store.load.spaces.get space = some loaded) :
    loaded = (s.records space).load := by
  rw [MetaStore.load, OrdMap.get_mapValues, Option.map_eq_some_iff] at h
  obtain ⟨r, hr, rfl⟩ := h
  rw [Shared.records, MetaStore.records, hr]
  rfl

/-- The check of `unlease_checked` changes nothing of the records. -/
theorem accepts_of_eval_reject
    (h : Prog.Eval (Instant sha256 now) (rejectUnleaseIfCheckedAssertionsLoseCoverage space ids).run s
        (.ok ()) t) : Accepts now ids (s.records space).load ∧ t.store = s.store := by
  rw [rejectUnleaseIfCheckedAssertionsLoseCoverage, eval_bind_ok_iff] at h
  obtain ⟨state, s₁, hload, hrest⟩ := h
  obtain ⟨choice, -, hexec⟩ := eval_ask_iff.mp hload
  cases hexec
  split at hrest
  next habsent =>
    rw [pure_run, Prog.eval_done_iff] at hrest
    refine ⟨fun p hp => ?_, by rw [hrest.2]⟩
    rw [checkedAsserts_of_absent habsent] at hp
    cases hp
  next loaded hloaded =>
    obtain rfl := get_load_spaces hloaded
    dsimp only at hrest
    split at hrest
    next hnone =>
      rw [pure_run, Prog.eval_done_iff] at hrest
      refine ⟨fun p _ ⟨held, hheld, hid, _⟩ => ?_, by rw [hrest.2]⟩
      have hmem := mem_releasing_iff.mpr ⟨hheld, hid⟩
      rw [hnone] at hmem
      cases hmem
    next =>
      obtain ⟨stamp, s₂, hstamp, hcheck⟩ := eval_bind_ok_iff.mp hrest
      obtain ⟨choice, rfl, hexec⟩ := eval_ask_iff.mp hstamp
      cases hexec
      obtain ⟨hall, rfl⟩ := eval_rejectUnlease_iff.mp hcheck
      refine ⟨fun p hp ⟨held, hheld, hid, hprotects, happlied⟩ => ?_, rfl⟩
      exact hasReplacement_iff.mp
        (hall p hp ⟨held, mem_releasing_iff.mpr ⟨hheld, hid⟩, hprotects, happlied⟩)

/-- A check that has nothing to object passes. -/
theorem eval_reject_of_accepts (h : Accepts now ids (s.records space).load) :
    ∃ t, Prog.Eval (Instant sha256 now)
        (rejectUnleaseIfCheckedAssertionsLoseCoverage space ids).run s (.ok ()) t ∧
      t.store = s.store ∧ t.verbs = s.verbs := by
  have hload : Prog.Eval (Instant sha256 now) (ask .load).run s (.ok s.store.load) s :=
    eval_ask_iff.mpr ⟨choiceAt now .delayed, rfl, rfl⟩
  simp only [rejectUnleaseIfCheckedAssertionsLoseCoverage, eval_bind_ok_iff]
  cases hspace : s.store.load.spaces.get space with
  | none =>
    refine ⟨s, ⟨_, s, hload, ?_⟩, rfl, rfl⟩
    simp [hspace]
  | some loaded =>
    obtain rfl := get_load_spaces hspace
    by_cases hnone : ids.filterMap (s.records space).load.leases.get = []
    · refine ⟨s, ⟨_, s, hload, ?_⟩, rfl, rfl⟩
      simp [hspace, hnone]
    · refine ⟨{ s with wall := now.wall }, ⟨_, s, hload, ?_⟩, rfl, rfl⟩
      simp only [hspace, if_neg hnone]
      refine eval_bind_ok_iff.mpr ⟨now, { s with wall := now.wall }, ?_, ?_⟩
      · exact eval_ask_iff.mpr ⟨choiceAt now .delayed, rfl, rfl⟩
      · refine eval_rejectUnlease_iff.mpr ⟨fun p hp ⟨held, hheld, hprotects, happlied⟩ => ?_, rfl⟩
        obtain ⟨hloaded, hid⟩ := mem_releasing_iff.mp hheld
        exact hasReplacement_iff.mpr (h p hp ⟨held, hloaded, hid, hprotects, happlied⟩)

/-- What a successful call leaves behind. -/
theorem unleaseChecked_effect
    (h : Prog.Eval (Instant sha256 now) (unleaseChecked device space ids).run s (.ok ()) t) :
    Accepts now ids (s.records space).load ∧
      (t.records space) = (s.records space).dropLeases ids := by
  rw [unleaseChecked] at h
  split at h
  next hids =>
    rw [pure_run, Prog.eval_done_iff] at h
    obtain ⟨-, rfl⟩ := h
    subst hids
    refine ⟨fun p _ ⟨held, _, hid, _⟩ => (by cases hid), ?_⟩
    simp [SpaceRecords.dropLeases, OrdMap.retain]
  next hids =>
    obtain ⟨⟨⟩, s₁, hcheck, hinner⟩ := eval_bind_ok_iff.mp h
    obtain ⟨haccepts, hstore⟩ := accepts_of_eval_reject hcheck
    refine ⟨haccepts, ?_⟩
    rw [unleaseInner, if_neg hids] at hinner
    obtain ⟨_, s₂, hforget, hinner⟩ := eval_bind_ok_iff.mp hinner
    obtain ⟨_, s₃, hserve, hdrop⟩ := eval_bind_ok_iff.mp hinner
    obtain ⟨choice, -, hexec⟩ := eval_ask_iff.mp hforget
    cases hexec
    rw [served] at hserve
    obtain ⟨answer, s₄, hask, hanswer⟩ := eval_bind_ok_iff.mp hserve
    obtain ⟨choice', -, hexec⟩ := eval_ask_iff.mp hask
    have hs₄ : s₄.store = (s₁.update space ((s₁.records space).forgetLeases ids)).store := by
      cases hexec
      cases choice'.fate <;> rfl
    have hs₃ : s₃ = s₄ := by
      cases answer with
      | ok response => exact (Prog.eval_done_iff.mp hanswer).2
      | error error => simp at hanswer
    obtain ⟨choice'', -, hexec⟩ := eval_ask_iff.mp hdrop
    cases hexec
    simp only [Shared.records, Shared.update, MetaStore.records_setRecords_self, hs₃, hs₄,
      SpaceRecords.dropLeases_forgetLeases, hstore]

/-- A call whose check passes and whose release is answered succeeds. -/
theorem unleaseChecked_succeeds (hids : ids ≠ []) (h : Accepts now ids (s.records space).load)
    {wall : Timestamp}
    (hserve : serve sha256 space (s.verbs space) wall (.release ⟨device, ids⟩) = .ok ()) :
    ∃ t, Prog.Eval (Instant sha256 now) (unleaseChecked device space ids).run s (.ok ()) t := by
  obtain ⟨s₁, hcheck, hstore, hverbs⟩ := @eval_reject_of_accepts sha256 now space ids s h
  have hrelease : ∃ s₃, Prog.Eval (Instant sha256 now) (served space (.release ⟨device, ids⟩)).run
      (s₁.update space ((s₁.records space).forgetLeases ids)) (.ok ()) s₃ := by
    have hask : Prog.Eval (Instant sha256 now)
        (ask (.server space (.release ⟨device, ids⟩))).run
        (s₁.update space ((s₁.records space).forgetLeases ids)) (.ok (.ok ()))
        (execServer sha256 (.answered wall) space (.release ⟨device, ids⟩)
          (s₁.update space ((s₁.records space).forgetLeases ids))).2 := by
      refine eval_ask_iff.mpr ⟨choiceAt now (.answered wall), rfl, ?_⟩
      refine Prod.ext (congrArg Except.ok ?_) rfl
      have hsame : (s₁.update space ((s₁.records space).forgetLeases ids)).verbs = s.verbs := hverbs
      simp only [choiceAt, execServer, hsame, hserve]
    exact ⟨_, eval_bind_ok_iff.mpr ⟨_, _, hask, Prog.Eval.done _ _⟩⟩
  obtain ⟨s₃, hrelease⟩ := hrelease
  rw [unleaseChecked, if_neg hids]
  simp only [eval_bind_ok_iff, unleaseInner, if_neg hids]
  exact ⟨_, (), s₁, hcheck, (), _, eval_ask_iff.mpr ⟨choiceAt now .delayed, rfl, rfl⟩, (), s₃,
    hrelease, eval_ask_iff.mpr ⟨choiceAt now .delayed, rfl, rfl⟩⟩

/-- The assertions queued before a call, each protected by a lease that was not released. -/
def StillProtected (now : HybridTimestamp) (ids : List LeaseId) (before after : LoadedSpace) :
    Prop :=
  ∀ p ∈ before.checkedAsserts,
    ∃ held ∈ after.leases.values, held.lease.id ∉ ids ∧ Protects now held p.2

theorem mem_load_dropLeases_iff : held ∈ (r.dropLeases ids).load.leases.values ↔
      held ∈ r.load.leases.values ∧ held.lease.id ∉ ids := by
  rw [mem_load_leases_iff, mem_load_leases_iff, SpaceRecords.get_load_dropLeases]
  split <;> simp_all

/-- What a successful call preserves, and when. -/
theorem stillProtected_iff
    (h : Prog.Eval (Instant sha256 now) (unleaseChecked device space ids).run s (.ok ()) t) :
    StillProtected now ids (s.records space).load (t.records space).load ↔
      GuardsApplied now ids (s.records space).load := by
  obtain ⟨haccepts, hrecords⟩ := unleaseChecked_effect h
  rw [hrecords]
  constructor
  · intro hstill p hp hreleased
    obtain ⟨held, hheld, hid, hprotects⟩ := hstill p hp
    exact absurd (hreleased held (mem_load_dropLeases_iff.mp hheld).1 hprotects) hid
  · intro hguards p hp
    by_cases hreleased : ∀ held ∈ (s.records space).load.leases.values,
        Protects now held p.2 → held.lease.id ∈ ids
    · -- the check looked at the guard, so it found a replacement
      obtain ⟨held, hheld, hid, hprotects⟩ := haccepts p hp (hguards p hp hreleased)
      exact ⟨held, mem_load_dropLeases_iff.mpr ⟨hheld, hid⟩, hid, hprotects⟩
    · push Not at hreleased
      obtain ⟨held, hheld, hprotects, hid⟩ := hreleased
      exact ⟨held, mem_load_dropLeases_iff.mpr ⟨hheld, hid⟩, hid, hprotects⟩

end Call

/-! ## Sequences of calls -/

/-- Successful calls one after another, each under the condition on its guards; no held
lease expires from one call to the next. -/
inductive Unleases (sha256 : Bytes → ByteArr 32) (device : DeviceId) (space : SpaceId) :
    Shared → HybridTimestamp → List (List LeaseId) → Shared → HybridTimestamp → Prop
  | nil (s : Shared) (now : HybridTimestamp) : Unleases sha256 device space s now [] s now
  | cons {s s₁ t : Shared} {now now₁ later : HybridTimestamp} {ids : List LeaseId}
      {calls : List (List LeaseId)}
      (hguards : GuardsApplied now ids (s.records space).load)
      (hcall : Prog.Eval (Instant sha256 now) (unleaseChecked device space ids).run s (.ok ()) s₁)
      (hlive : ∀ held ∈ (s₁.records space).load.leases.values,
        leaseLive held now = true → leaseLive held now₁ = true)
      (hcalls : Unleases sha256 device space s₁ now₁ calls t later) :
      Unleases sha256 device space s now (ids :: calls) t later

theorem Unleases.allProtected {sha256 : Bytes → ByteArr 32} {device : DeviceId} {space : SpaceId}
    {s t : Shared} {now later : HybridTimestamp} {calls : List (List LeaseId)}
    (h : Unleases sha256 device space s now calls t later)
    (hprotected : AllProtected now (s.records space).load) :
    AllProtected later (t.records space).load := by
  induction h with
  | nil s now => exact hprotected
  | @cons s s₁ t now now₁ later ids calls hguards hcall hlive _ ih =>
    refine ih fun p hp => ?_
    have hstill := (stillProtected_iff hcall).mpr hguards
    rw [(unleaseChecked_effect hcall).2] at hp
    obtain ⟨held, hheld, -, hprotects⟩ := hstill p hp
    exact ⟨held, hheld, hprotects.1, hlive held hheld hprotects.2, hprotects.3⟩

/-- A successful `unlease_checked` keeps every queued checked assertion protected exactly if
its guards are applied, and no sequence of such calls removes the last protection. -/
theorem unlease_checked_keeps_protection (sha256 : Bytes → ByteArr 32) (device : DeviceId)
    (space : SpaceId) :
    (∀ (s t : Shared) (now : HybridTimestamp) (ids : List LeaseId),
      AllProtected now (s.records space).load →
      Prog.Eval (Instant sha256 now) (unleaseChecked device space ids).run s (.ok ()) t →
      (StillProtected now ids (s.records space).load (t.records space).load ↔
        GuardsApplied now ids (s.records space).load)) ∧
    (∀ (s t : Shared) (now later : HybridTimestamp) (calls : List (List LeaseId)),
      AllProtected now (s.records space).load →
      Unleases sha256 device space s now calls t later →
      AllProtected later (t.records space).load) :=
  ⟨fun _ _ _ _ _ hcall => stillProtected_iff hcall,
    fun _ _ _ _ _ hprotected hcalls => hcalls.allProtected hprotected⟩

/-! ### A space with one queued assertion -/

/-- A lease on the sample key, live for a hundred milliseconds. -/
def queuedLease (id : LeaseId) (leasePrefix : Key) (barrier : AdmissionSeq) : HeldLease :=
  ⟨⟨id, leasePrefix, .write, ⟨0, 0, .zero 16⟩, 0, ⟨100000000⟩, barrier⟩, ⟨100, 100, .zero 16⟩, false⟩

/-- A key under the sample key. -/
def queuedKey : Key := Key.ofTwoBytes 1 1

/-- One checked submission is queued, under the given leases. -/
def queuedRecords (leases : List HeldLease) : SpaceRecords :=
  SpaceRecords.recordLeases
    { SpaceRecords.empty with
      cursors := some ⟨1, 1, 2⟩
      verHigh := some 0
      oplog := OrdMap.empty.insert 1 (.commit [] [⟨queuedKey, 0⟩] [] .checked) } leases

/-- A store with these records. -/
def queuedShared (leases : List HeldLease) : Shared :=
  Shared.initial.update (.zero 16) (queuedRecords leases)

theorem records_queuedShared (leases : List HeldLease) :
    (queuedShared leases).records (.zero 16) = queuedRecords leases := by
  simp [queuedShared, Shared.update, Shared.records]

theorem checkedAsserts_queued (leases : List HeldLease) :
    (queuedRecords leases).load.checkedAsserts = [(1, ⟨queuedKey, 0⟩)] := rfl

/-- Some time before the leases expire. -/
def queuedNow : HybridTimestamp := ⟨5, 5, .zero 16⟩

theorem release_queued (ids : List LeaseId) (hids : ids.length = 1) :
    serve (fun _ => .zero 32) (.zero 16) [] 5 (.release ⟨sampleHolder, ids⟩) = .ok () := by
  obtain ⟨id, rfl⟩ := length_eq_one_iff.mp hids
  rfl

theorem protects_queuedLease {id : LeaseId} {leasePrefix : Key} {barrier : AdmissionSeq}
    (h : queuedKey.startsWith leasePrefix = true) :
    Protects queuedNow (queuedLease id leasePrefix barrier) ⟨queuedKey, 0⟩ := ⟨rfl, rfl, h⟩

/-- A released guard that is usable, with a replacement that is not. -/
def replacedLeases : List HeldLease := [queuedLease 1 sampleKey 0, queuedLease 2 queuedKey 1]

theorem replacement_mem :
    queuedLease 2 queuedKey 1 ∈ (queuedRecords replacedLeases).load.leases.values :=
  mem_load_leases_iff.mpr rfl

theorem unlease_checked_keeps_protection_replaced :
    AllProtected queuedNow ((queuedShared replacedLeases).records (.zero 16)).load ∧
    ∃ t, Prog.Eval (Instant (fun _ => .zero 32) queuedNow)
        (unleaseChecked sampleHolder (.zero 16) [1]).run (queuedShared replacedLeases) (.ok ()) t ∧
      StillProtected queuedNow [1] ((queuedShared replacedLeases).records (.zero 16)).load
        (t.records (.zero 16)).load := by
  have hprotects : Protects queuedNow (queuedLease 2 queuedKey 1) ⟨queuedKey, 0⟩ :=
    protects_queuedLease (by decide)
  have hprotected :
      AllProtected queuedNow ((queuedShared replacedLeases).records (.zero 16)).load := by
    intro p hp
    rw [records_queuedShared] at hp ⊢
    rw [checkedAsserts_queued, mem_singleton] at hp
    exact ⟨_, replacement_mem, hp ▸ hprotects⟩
  have haccepts :
      Accepts queuedNow [1] ((queuedShared replacedLeases).records (.zero 16)).load := by
    intro p hp _
    rw [records_queuedShared] at hp ⊢
    rw [checkedAsserts_queued, mem_singleton] at hp
    exact ⟨_, replacement_mem, by decide, hp ▸ hprotects⟩
  have hguards :
      GuardsApplied queuedNow [1] ((queuedShared replacedLeases).records (.zero 16)).load := by
    intro p hp hreleased
    rw [records_queuedShared] at hp hreleased
    rw [checkedAsserts_queued, mem_singleton] at hp
    exact absurd (hreleased _ replacement_mem (hp ▸ hprotects)) (by decide)
  obtain ⟨t, hcall⟩ := unleaseChecked_succeeds (by decide) haccepts (release_queued [1] rfl)
  exact ⟨hprotected, t, hcall,
    ((unlease_checked_keeps_protection _ _ _).1 _ _ _ _ hprotected hcall).mpr hguards⟩

/-- The only protection, whose barrier is not applied. -/
def unappliedLeases : List HeldLease := [queuedLease 1 sampleKey 1]

/-- A lease whose barrier is not applied is released although it is the last protection. -/
theorem unlease_checked_drops_protection :
    AllProtected queuedNow ((queuedShared unappliedLeases).records (.zero 16)).load ∧
    ∃ t, Prog.Eval (Instant (fun _ => .zero 32) queuedNow)
        (unleaseChecked sampleHolder (.zero 16) [1]).run (queuedShared unappliedLeases) (.ok ()) t ∧
      ¬ StillProtected queuedNow [1] ((queuedShared unappliedLeases).records (.zero 16)).load
        (t.records (.zero 16)).load := by
  have hvalues : (queuedRecords unappliedLeases).load.leases.values =
      [queuedLease 1 sampleKey 1] := rfl
  have haccepts :
      Accepts queuedNow [1] ((queuedShared unappliedLeases).records (.zero 16)).load := by
    rintro p - ⟨held, hheld, -, -, happlied⟩
    rw [records_queuedShared] at hheld happlied
    rw [hvalues, mem_singleton] at hheld
    subst hheld
    exact absurd happlied (by decide)
  obtain ⟨t, hcall⟩ := unleaseChecked_succeeds (by decide) haccepts (release_queued [1] rfl)
  refine ⟨?_, t, hcall, fun hstill => ?_⟩
  · intro p hp
    rw [records_queuedShared] at hp ⊢
    rw [checkedAsserts_queued, mem_singleton] at hp
    refine ⟨queuedLease 1 sampleKey 1, by rw [hvalues]; exact mem_singleton_self _, ?_⟩
    exact hp ▸ protects_queuedLease (by decide)
  · rw [(unleaseChecked_effect hcall).2, records_queuedShared] at hstill
    obtain ⟨held, hheld, hid, -⟩ := hstill (1, ⟨queuedKey, 0⟩)
      (by rw [checkedAsserts_queued]; exact mem_singleton_self _)
    have hmem := (mem_load_dropLeases_iff.mp hheld).1
    rw [hvalues, mem_singleton] at hmem
    subst hmem
    exact hid (by decide)

end Homebase.Properties
