import Homebase.Client.Coordination

set_option autoImplicit false

/-!
# Properties: permits

A space that the loop regards as taken has exactly one owner: a permit, a grant that
was sent, or a command in the inbox that gives the space back (`OwnedAt`).  So no two
permits of a space exist.  An owner can be an abandoned grant, which nobody ever gives
back; as long as no future is dropped between its grant and its permit, there is none,
and every waiter is granted in the end.
-/

namespace Homebase.Properties

open Foundation Homebase.Core Client Client.Coordination List
open OrdMap (get_erase get_insert)

/-! ## Owners -/

/-- The phases in which an entrant owns its space. -/
def owns : Phase → Bool
  | .waiting => false
  | .granted => true
  | .holding => true
  | .finished => false
  | .cancelled => false
  | .abandoned => true

/-- Entrant `i` owns a space. -/
def Owns (c : Coordination) (i : Nat) (space : SpaceId) : Prop :=
  ∃ phase, owns phase = true ∧ c.IsIn i space phase

/-- How often a space is about to be given back. -/
def leaves (c : Coordination) (space : SpaceId) : Nat := c.inbox.count (.leave space)

/-- A space is taken exactly if it has an owner or is about to be given back, and it has
at most one of these. -/
structure OwnedAt (c : Coordination) (space : SpaceId) : Prop where
  unique : ∀ i j, Owns c i space → Owns c j space → i = j
  once : leaves c space ≤ 1
  apart : 0 < leaves c space → ∀ i, ¬ Owns c i space
  taken : ((∃ i, Owns c i space) ∨ 0 < leaves c space) ↔ (c.active.get space).isSome = true

/-- Everyone is where the space of his call is, and who waits is in the inbox or in a queue. -/
structure Placed (c : Coordination) : Prop where
  entering : ∀ space i, .enter space i ∈ c.inbox → ∃ phase, c.IsIn i space phase
  queued : ∀ space waiters i, c.active.get space = some waiters → i ∈ waiters →
    ∃ phase, c.IsIn i space phase
  waiting : ∀ i space, c.IsIn i space .waiting →
    .enter space i ∈ c.inbox ∨ ∃ waiters, c.active.get space = some waiters ∧ i ∈ waiters

section Steps

variable {c c' : Coordination} {i j : Nat} {space sp : SpaceId} {phase next : Phase}

theorem owns_setPhase_iff :
    Owns (c.setPhase i next) j space ↔
      if i = j then owns next = true ∧ ∃ before, c.IsIn j space before else Owns c j space := by
  simp only [Owns, isIn_setPhase_iff]
  split
  · constructor
    · rintro ⟨phase, howns, rfl, hbefore⟩
      exact ⟨howns, hbefore⟩
    · rintro ⟨howns, hbefore⟩
      exact ⟨next, howns, rfl, hbefore⟩
  · rfl

/-- A move within or outside the owning phases changes no owner. -/
theorem owns_setPhase_of_eq (hin : c.IsIn i sp phase) (h : owns next = owns phase) :
    Owns (c.setPhase i next) j space ↔ Owns c j space := by
  rw [owns_setPhase_iff]
  split
  next hij =>
    subst hij
    constructor
    · rintro ⟨howns, before, hbefore⟩
      obtain ⟨rfl, rfl⟩ := hin.space_eq hbefore
      exact ⟨phase, h ▸ howns, hin⟩
    · rintro ⟨before, howns, hbefore⟩
      obtain ⟨rfl, rfl⟩ := hin.space_eq hbefore
      exact ⟨h.trans howns, phase, hin⟩
  next => rfl

/-- Another space is not affected. -/
theorem owns_setPhase_of_ne (hin : c.IsIn i sp phase) (h : space ≠ sp) :
    Owns (c.setPhase i next) j space ↔ Owns c j space := by
  rw [owns_setPhase_iff]
  split
  next hij =>
    subst hij
    constructor
    · rintro ⟨_, before, hbefore⟩
      exact absurd (hin.space_eq hbefore).1.symm h
    · rintro ⟨before, _, hbefore⟩
      exact absurd (hin.space_eq hbefore).1.symm h
  next => rfl

theorem OwnedAt.congr (howns : ∀ i, Owns c' i space ↔ Owns c i space)
    (hleaves : leaves c' space = leaves c space)
    (hactive : (c'.active.get space).isSome = (c.active.get space).isSome)
    (h : OwnedAt c space) : OwnedAt c' space where
  unique i j hi hj := h.unique i j ((howns i).mp hi) ((howns j).mp hj)
  once := hleaves ▸ h.once
  apart hpos i hi := h.apart (hleaves ▸ hpos) i ((howns i).mp hi)
  taken := by
    rw [hactive, ← h.taken, hleaves]
    simp only [howns]

/-- A waiter of a space without owner is granted. -/
theorem OwnedAt.grant {waiters : List Nat} (hin : c.IsIn i space .waiting)
    (hfree : ∀ j, ¬ Owns c j space) (hleaves : leaves c space = 0) :
    OwnedAt { c.setPhase i .granted with active := c.active.insert space waiters } space := by
  have howner : ∀ j, Owns { c.setPhase i .granted with active := c.active.insert space waiters }
      j space → j = i := by
    intro j hj
    have hj : Owns (c.setPhase i .granted) j space := hj
    rw [owns_setPhase_iff] at hj
    split at hj
    next hij => exact hij.symm
    next => exact absurd hj (hfree j)
  have hi : Owns { c.setPhase i .granted with active := c.active.insert space waiters } i space :=
    (owns_setPhase_iff (c := c)).mpr (by rw [if_pos rfl]; exact ⟨rfl, _, hin⟩)
  have hzero : leaves { c.setPhase i .granted with active := c.active.insert space waiters }
      space = 0 := hleaves
  refine ⟨fun j k hj hk => (howner j hj).trans (howner k hk).symm, by omega, by omega, ?_⟩
  exact ⟨fun _ => by simp, fun _ => Or.inl ⟨i, hi⟩⟩

theorem known_setPhase_iff :
    (∃ phase, (c.setPhase i next).IsIn j space phase) ↔ ∃ phase, c.IsIn j space phase := by
  simp only [isIn_setPhase_iff]
  split
  · exact ⟨fun ⟨_, _, hbefore⟩ => hbefore, fun hbefore => ⟨next, rfl, hbefore⟩⟩
  · rfl

/-- Who waits after a move to another phase waited before, and did not move. -/
theorem waiting_of_setPhase (hnext : next ≠ .waiting)
    (h : (c.setPhase i next).IsIn j space .waiting) : c.IsIn j space .waiting ∧ i ≠ j := by
  rw [isIn_setPhase_iff] at h
  split at h
  next => exact absurd h.1.symm hnext
  next hij => exact ⟨h, hij⟩

/-! ### The loop -/

/-- `grant_next` grants the first waiter that still waits, if there is one. -/
theorem grantFirst_cases (c : Coordination) (space : SpaceId) (waiters : List Nat) :
    ((∀ i ∈ waiters, c.receives i = false) ∧ c.grantFirst space waiters = c) ∨
    ∃ before i rest, waiters = before ++ i :: rest ∧ (∀ j ∈ before, c.receives j = false) ∧
      c.receives i = true ∧ c.grantFirst space waiters =
        { c.setPhase i .granted with active := c.active.insert space rest } := by
  induction waiters with
  | nil => exact Or.inl ⟨by simp, rfl⟩
  | cons i rest ih =>
    rw [grantFirst]
    by_cases hi : c.receives i = true
    · rw [if_pos hi]
      exact Or.inr ⟨[], i, rest, rfl, by simp, hi, rfl⟩
    · rw [if_neg hi]
      have hi : c.receives i = false := by simpa using hi
      rcases ih with ⟨hall, heq⟩ | ⟨before, j, rest', rfl, hbefore, hj, heq⟩
      · exact Or.inl ⟨forall_mem_cons.mpr ⟨hi, hall⟩, heq⟩
      · exact Or.inr ⟨i :: before, j, rest', rfl, forall_mem_cons.mpr ⟨hi, hbefore⟩, hj, heq⟩

/-- The state in which a command was taken from the inbox. -/
def taken (c : Coordination) (inbox : List Command) : Coordination := { c with inbox }

section Handle

variable {inbox : List Command}

theorem leaves_taken_leave (hinbox : c.inbox = .leave space :: inbox) :
    leaves c sp = leaves (taken c inbox) sp + if sp = space then 1 else 0 := by
  simp only [leaves, taken, hinbox, count_cons]
  by_cases h : sp = space
  · simp [h]
  · simp [h, Ne.symm h]

theorem leaves_taken_enter (hinbox : c.inbox = .enter space i :: inbox) :
    leaves c sp = leaves (taken c inbox) sp := by
  simp [leaves, taken, hinbox]

/-- The owners after a space was given back. -/
theorem ownedAt_handle_leave (hinbox : c.inbox = .leave space :: inbox) (hplaced : Placed c)
    (h : ∀ sp, OwnedAt c sp) (sp : SpaceId) :
    OwnedAt ((taken c inbox).grantNext space) sp := by
  have hcount : leaves c sp = leaves (taken c inbox) sp + if sp = space then 1 else 0 :=
    leaves_taken_leave hinbox
  have hpos : 0 < leaves c space := by rw [leaves_taken_leave hinbox, if_pos rfl]; omega
  have hfree : ∀ j, ¬ Owns c j space := (h space).apart hpos
  have hzero : leaves (taken c inbox) space = 0 := by
    have honce := (h space).once
    rw [leaves_taken_leave hinbox, if_pos rfl] at honce
    omega
  obtain ⟨waiters, hwaiters⟩ := Option.isSome_iff_exists.mp ((h space).taken.mp (Or.inr hpos))
  have hget : (taken c inbox).active.get space = some waiters := hwaiters
  rw [grantNext, hget]
  dsimp only
  rcases grantFirst_cases { taken c inbox with active := (taken c inbox).active.erase space }
    space waiters with ⟨-, heq⟩ | ⟨before, i, rest, rfl, -, hi, heq⟩
  · rw [heq]
    by_cases hsp : sp = space
    · subst hsp
      refine ⟨fun i _ hi => absurd hi (hfree i), ?_, fun _ => hfree, ?_⟩
      · change leaves (taken c inbox) sp ≤ 1
        omega
      · change (_ ∨ 0 < leaves (taken c inbox) sp) ↔ _
        simp only [hzero, get_erase, if_true, lt_irrefl, or_false]
        exact ⟨fun ⟨i, hi⟩ => absurd hi (hfree i), fun hsome => by cases hsome⟩
    · refine OwnedAt.congr (c := c) (fun _ => Iff.rfl) ?_ ?_ (h sp)
      · rw [hcount, if_neg hsp]
        rfl
      · simp [get_erase, hsp, taken]
  · rw [heq]
    obtain ⟨space', hwaiting⟩ := receives_iff.mp hi
    have hwaiting : c.IsIn i space' .waiting := hwaiting
    obtain ⟨phase, hphase⟩ := hplaced.queued space _ i hwaiters (by simp)
    obtain ⟨rfl, -⟩ := IsIn.space_eq hphase hwaiting
    by_cases hsp : sp = space
    · subst hsp
      exact OwnedAt.grant hwaiting hfree hzero
    · refine OwnedAt.congr (c := c) (fun _ => owns_setPhase_of_ne (c := c) hwaiting hsp) ?_ ?_ (h sp)
      · rw [hcount, if_neg hsp]
        rfl
      · simp [get_erase, get_insert, hsp, taken]

/-- The owners after somebody asked for a space. -/
theorem ownedAt_handle_enter (hinbox : c.inbox = .enter space i :: inbox) (hplaced : Placed c)
    (h : ∀ sp, OwnedAt c sp) (sp : SpaceId) :
    OwnedAt ((taken c inbox).handle (.enter space i)) sp := by
  have hcount : leaves c sp = leaves (taken c inbox) sp := leaves_taken_enter hinbox
  rw [handle]
  cases hactive : (taken c inbox).active.get space with
  | some waiters =>
    refine OwnedAt.congr (c := c) (fun _ => Iff.rfl) hcount.symm ?_ (h sp)
    by_cases hsp : sp = space
    · subst hsp
      have hactive : c.active.get sp = some waiters := hactive
      simp [hactive]
    · simp [get_insert, hsp, taken]
  | none =>
    dsimp only
    split
    next hi =>
      obtain ⟨space', hwaiting⟩ := receives_iff.mp hi
      have hwaiting : c.IsIn i space' .waiting := hwaiting
      obtain ⟨phase, hphase⟩ := hplaced.entering space i (by rw [hinbox]; simp)
      obtain ⟨rfl, -⟩ := IsIn.space_eq hphase hwaiting
      by_cases hsp : sp = space
      · subst hsp
        have hnone : c.active.get sp = none := hactive
        have hfree := mt (h sp).taken.mp (by simp [hnone])
        rw [not_or, not_exists] at hfree
        exact OwnedAt.grant hwaiting hfree.1 (by rw [← hcount]; omega)
      · refine OwnedAt.congr (c := c) (fun _ => owns_setPhase_of_ne (c := c) hwaiting hsp)
          hcount.symm ?_ (h sp)
        simp [get_insert, hsp, taken]
    next => exact OwnedAt.congr (c := c) (fun _ => Iff.rfl) hcount.symm rfl (h sp)

/-- Who waits is still placed when a command that is not theirs was taken. -/
theorem waiting_taken (hplaced : Placed c) (hwaiting : c.IsIn j space .waiting)
    {command : Command} (hinbox : c.inbox = command :: inbox) (hne : command ≠ .enter space j) :
    .enter space j ∈ inbox ∨ ∃ waiters, c.active.get space = some waiters ∧ j ∈ waiters := by
  rcases hplaced.waiting j space hwaiting with hmem | hqueued
  · rw [hinbox, mem_cons] at hmem
    exact Or.inl (hmem.resolve_left fun heq => hne heq.symm)
  · exact Or.inr hqueued

theorem placed_handle_leave (hinbox : c.inbox = .leave space :: inbox) (hplaced : Placed c) :
    Placed ((taken c inbox).grantNext space) := by
  have hentering : ∀ sp i, .enter sp i ∈ inbox → ∃ phase, c.IsIn i sp phase :=
    fun sp i hi => hplaced.entering sp i (by rw [hinbox]; exact mem_cons_of_mem _ hi)
  rw [grantNext]
  cases hactive : (taken c inbox).active.get space with
  | none =>
    exact ⟨hentering, hplaced.queued,
      fun j sp hj => waiting_taken (c := c) hplaced hj hinbox (by simp)⟩
  | some waiters =>
    have hactive : c.active.get space = some waiters := hactive
    dsimp only
    rcases grantFirst_cases { taken c inbox with active := (taken c inbox).active.erase space }
      space waiters with ⟨hnone, heq⟩ | ⟨before, i, rest, rfl, hbefore, hi, heq⟩
    · rw [heq]
      refine ⟨hentering, fun sp ws j hws hj => ?_, fun j sp hj => ?_⟩
      · simp only [taken, get_erase] at hws
        split at hws
        · cases hws
        · exact hplaced.queued sp ws j hws hj
      · refine (waiting_taken hplaced hj hinbox (by simp)).imp_right ?_
        rintro ⟨ws, hws, hmem⟩
        refine ⟨ws, ?_, hmem⟩
        rw [taken, get_erase, if_neg]
        · exact hws
        · -- nobody in the queue of the freed space waits
          rintro rfl
          rw [hactive] at hws
          cases hws
          have hdead := hnone j hmem
          rw [Bool.eq_false_iff] at hdead
          exact hdead ((receives_iff (c := c)).mpr ⟨_, hj⟩)
    · rw [heq]
      refine ⟨fun sp j hj => ?_, fun sp ws j hws hj => ?_, fun j sp hj => ?_⟩
      · exact (known_setPhase_iff (c := c)).mpr (hentering sp j hj)
      · refine (known_setPhase_iff (c := c)).mpr ?_
        simp only [taken, get_insert, get_erase] at hws
        split at hws
        next hsp =>
          cases hws
          exact hplaced.queued sp _ j (hsp ▸ hactive) (by simp [hj])
        next => exact hplaced.queued sp ws j hws hj
      · obtain ⟨hwas, hij⟩ := waiting_of_setPhase (c := c) (by simp) hj
        refine (waiting_taken hplaced hwas hinbox (by simp)).imp_right ?_
        rintro ⟨ws, hws, hmem⟩
        by_cases hsp : sp = space
        · subst hsp
          rw [hactive] at hws
          cases hws
          refine ⟨rest, by simp, ?_⟩
          rw [mem_append, mem_cons] at hmem
          rcases hmem with hmem | rfl | hmem
          · have hdead := hbefore j hmem
            rw [Bool.eq_false_iff] at hdead
            exact absurd ((receives_iff (c := c)).mpr ⟨_, hwas⟩) hdead
          · exact absurd rfl hij
          · exact hmem
        · exact ⟨ws, by simp [get_insert, get_erase, hsp, taken, hws], hmem⟩

theorem placed_handle_enter (hinbox : c.inbox = .enter space i :: inbox) (hplaced : Placed c) :
    Placed ((taken c inbox).handle (.enter space i)) := by
  have hentering : ∀ sp j, .enter sp j ∈ inbox → ∃ phase, c.IsIn j sp phase :=
    fun sp j hj => hplaced.entering sp j (by rw [hinbox]; exact mem_cons_of_mem _ hj)
  have hhead : ∃ phase, c.IsIn i space phase := hplaced.entering space i (by rw [hinbox]; simp)
  rw [handle]
  cases hactive : (taken c inbox).active.get space with
  | some waiters =>
    have hactive : c.active.get space = some waiters := hactive
    refine ⟨hentering, fun sp ws j hws hj => ?_, fun j sp hj => ?_⟩
    · simp only [taken, get_insert] at hws
      split at hws
      next hsp =>
        subst hsp
        cases hws
        rw [mem_append, mem_singleton] at hj
        rcases hj with hj | rfl
        · exact hplaced.queued sp waiters j hactive hj
        · exact hhead
      next => exact hplaced.queued sp ws j hws hj
    · by_cases hown : (.enter space i : Command) = .enter sp j
      · cases hown
        exact Or.inr ⟨waiters ++ [i], by simp, by simp⟩
      · refine (waiting_taken hplaced hj hinbox hown).imp_right ?_
        rintro ⟨ws, hws, hmem⟩
        by_cases hsp : sp = space
        · subst hsp
          rw [hactive] at hws
          cases hws
          exact ⟨waiters ++ [i], by simp, by simp [hmem]⟩
        · exact ⟨ws, by simp [get_insert, hsp, taken, hws], hmem⟩
  | none =>
    have hactive : c.active.get space = none := hactive
    dsimp only
    split
    next hi =>
      refine ⟨fun sp j hj => ?_, fun sp ws j hws hj => ?_, fun j sp hj => ?_⟩
      · exact (known_setPhase_iff (c := c)).mpr (hentering sp j hj)
      · refine (known_setPhase_iff (c := c)).mpr ?_
        simp only [taken, get_insert] at hws
        split at hws
        · cases hws
          cases hj
        · exact hplaced.queued sp ws j hws hj
      · obtain ⟨hwas, hij⟩ := waiting_of_setPhase (c := c) (by simp) hj
        refine (waiting_taken hplaced hwas hinbox ?_).imp_right ?_
        · intro heq
          cases heq
          exact hij rfl
        · rintro ⟨ws, hws, hmem⟩
          refine ⟨ws, ?_, hmem⟩
          rw [get_insert, if_neg]
          · exact hws
          · rintro rfl
            rw [hactive] at hws
            cases hws
    next hi =>
      refine ⟨hentering, hplaced.queued,
        fun j sp hj => waiting_taken (c := c) hplaced hj hinbox ?_⟩
      intro heq
      cases heq
      exact hi (receives_iff.mpr ⟨_, hj⟩)

end Handle

/-! ### The callers -/

theorem placed_setPhase (hnext : next ≠ .waiting) (h : Placed c) : Placed (c.setPhase i next) where
  entering sp j hj := known_setPhase_iff.mpr (h.entering sp j hj)
  queued sp ws j hws hj := known_setPhase_iff.mpr (h.queued sp ws j hws hj)
  waiting j sp hj := h.waiting j sp (waiting_of_setPhase hnext hj).1

theorem isIn_enter_iff :
    (c.move (.enter sp)).IsIn j space phase ↔
      c.IsIn j space phase ∨ j = c.entrants.length ∧ space = sp ∧ phase = .waiting := by
  simp only [move, IsIn]
  rcases Nat.lt_trichotomy j c.entrants.length with hlt | heq | hgt
  · rw [getElem?_append_left hlt]
    simp [hlt.ne]
  · subst heq
    rw [getElem?_concat_length, getElem?_eq_none (Nat.le_refl _)]
    simp only [Option.some.injEq, Entrant.mk.injEq, reduceCtorEq, false_or, true_and]
    rw [@eq_comm _ sp, @eq_comm _ _ phase]
  · rw [getElem?_eq_none (by simp; omega), getElem?_eq_none (by omega)]
    simp [hgt.ne']

/-- The loop and its callers are sound. -/
structure Sound (c : Coordination) : Prop where
  placed : Placed c
  owned : ∀ space, OwnedAt c space

theorem Sound.initial : Sound Coordination.initial where
  placed := ⟨by simp [Coordination.initial], by simp [Coordination.initial],
    by simp [Coordination.initial, IsIn]⟩
  owned space := by
    have hnone : ∀ i, ¬ Owns Coordination.initial i space := by
      rintro i ⟨phase, -, hin⟩
      simp [IsIn, Coordination.initial] at hin
    refine ⟨fun i _ hi => absurd hi (hnone i), by simp [leaves, Coordination.initial],
      fun _ => hnone, ?_⟩
    simpa [leaves, Coordination.initial] using hnone

theorem Sound.enter (h : Sound c) : Sound (c.move (.enter sp)) where
  placed := by
    refine ⟨fun space j hj => ?_, fun space ws j hws hj => ?_, fun j space hj => ?_⟩
    · simp only [move, mem_append, mem_singleton, Command.enter.injEq] at hj
      rcases hj with hj | ⟨rfl, rfl⟩
      · exact (h.placed.entering space j hj).imp fun _ hin => isIn_enter_iff.mpr (Or.inl hin)
      · exact ⟨.waiting, isIn_enter_iff.mpr (Or.inr ⟨rfl, rfl, rfl⟩)⟩
    · exact (h.placed.queued space ws j hws hj).imp fun _ hin => isIn_enter_iff.mpr (Or.inl hin)
    · rcases isIn_enter_iff.mp hj with hj | ⟨rfl, rfl, -⟩
      · exact (h.placed.waiting j space hj).imp_left fun hmem => mem_append_left _ hmem
      · exact Or.inl (by simp [move])
  owned space := by
    refine OwnedAt.congr (c := c) (fun j => ?_) (by simp [leaves, move]) rfl (h.owned space)
    constructor
    · rintro ⟨phase, howns, hin⟩
      rcases isIn_enter_iff.mp hin with hin | ⟨-, -, rfl⟩
      · exact ⟨phase, howns, hin⟩
      · cases howns
    · rintro ⟨phase, howns, hin⟩
      exact ⟨phase, howns, isIn_enter_iff.mpr (Or.inl hin)⟩

/-- A move within or outside the owning phases. -/
theorem Sound.setPhase (h : Sound c) (hin : c.IsIn i sp phase) (hnext : next ≠ .waiting)
    (hsame : owns next = owns phase) : Sound (c.setPhase i next) where
  placed := placed_setPhase hnext h.placed
  owned space := OwnedAt.congr (c := c) (fun _ => owns_setPhase_of_eq hin hsame) rfl rfl
    (h.owned space)

theorem Sound.drop (h : Sound c) (hin : c.IsIn i sp .holding) :
    Sound { c.setPhase i .finished with inbox := c.inbox ++ [.leave sp] } where
  placed := by
    refine ⟨fun space j hj => ?_, fun space ws j hws hj => ?_, fun j space hj => ?_⟩
    · simp only [mem_append, mem_singleton, reduceCtorEq, or_false] at hj
      exact (known_setPhase_iff (c := c)).mpr (h.placed.entering space j hj)
    · exact (known_setPhase_iff (c := c)).mpr (h.placed.queued space ws j hws hj)
    · exact (h.placed.waiting j space (waiting_of_setPhase (c := c) (by simp) hj).1).imp_left
        fun hmem => mem_append_left _ hmem
  owned space := by
    have howner : Owns c i sp := ⟨.holding, rfl, hin⟩
    have hcount : leaves { c.setPhase i .finished with inbox := c.inbox ++ [.leave sp] } space =
        leaves c space + if space = sp then 1 else 0 := by
      simp only [leaves, count_append]
      by_cases hsp : space = sp
      · simp [hsp]
      · simp [hsp, Ne.symm hsp]
    by_cases hsp : space = sp
    · subst hsp
      -- the permit was the only owner, and the space was not given back yet
      have hfree : ∀ j, ¬ Owns { c.setPhase i .finished with inbox := c.inbox ++ [.leave space] }
          j space := by
        intro j hj
        have hj : Owns (c.setPhase i .finished) j space := hj
        rw [owns_setPhase_iff] at hj
        split at hj
        next => cases hj.1
        next hij => exact hij ((h.owned space).unique i j howner hj)
      have hzero : leaves c space = 0 := by
        by_contra hpos
        exact (h.owned space).apart (by omega) i howner
      rw [hzero, if_pos rfl] at hcount
      refine ⟨fun j _ hj => absurd hj (hfree j), by omega, fun _ => hfree, ?_⟩
      have hactive := (h.owned space).taken.mp (Or.inl ⟨i, howner⟩)
      exact ⟨fun _ => hactive, fun _ => Or.inr (by omega)⟩
    · refine OwnedAt.congr (c := c) (fun _ => owns_setPhase_of_ne (c := c) hin hsp) ?_ rfl
        (h.owned space)
      rw [hcount, if_neg hsp]
      rfl

/-- Every move keeps the loop and its callers sound. -/
theorem Sound.move (h : Sound c) (m : Move) : Sound (c.move m) := by
  cases m with
  | enter sp => exact h.enter
  | handle =>
    rw [Coordination.move]
    cases hinbox : c.inbox with
    | nil => exact h
    | cons command inbox =>
      cases command with
      | enter sp i =>
        exact ⟨placed_handle_enter hinbox h.placed, ownedAt_handle_enter hinbox h.placed h.owned⟩
      | leave sp =>
        exact ⟨placed_handle_leave hinbox h.placed, ownedAt_handle_leave hinbox h.placed h.owned⟩
  | poll i =>
    rw [Coordination.move]
    split
    next sp hin => exact h.setPhase hin (by simp) rfl
    next => exact h
  | cancel i =>
    rw [Coordination.move]
    split
    next sp hin => exact h.setPhase hin (by simp) rfl
    next sp hin => exact h.setPhase hin (by simp) rfl
    next => exact h
  | drop i =>
    rw [Coordination.move]
    split
    next sp hin => exact h.drop hin
    next => exact h

end Steps

theorem sound_after (moves : List Move) : Sound (after moves) := by
  induction moves using List.reverseRecOn with
  | nil => exact Sound.initial
  | append_singleton moves m ih =>
    rw [after_concat]
    exact ih.move m

/-! ## Draining -/

/-- What is left to do: handling a command, polling a granted future, dropping a permit. -/
def Drains (c : Coordination) : Move → Prop
  | .enter _ => False
  | .handle => c.inbox ≠ []
  | .poll i => ∃ space, c.IsIn i space .granted
  | .cancel _ => False
  | .drop i => ∃ space, c.IsIn i space .holding

/-- A sequence of such moves. -/
inductive Drain : Coordination → List Move → Coordination → Prop
  | nil (c : Coordination) : Drain c [] c
  | cons {c c' : Coordination} {m : Move} {moves : List Move} (hm : Drains c m)
      (hmoves : Drain (c.move m) moves c') : Drain c (m :: moves) c'

/-- How many of these moves an entrant still causes. -/
def weight : Phase → Nat
  | .waiting => 4
  | .granted => 3
  | .holding => 2
  | .finished => 0
  | .cancelled => 0
  | .abandoned => 0

/-- A bound on the number of moves that are left. -/
def backlog (c : Coordination) : Nat :=
  c.inbox.length + (c.entrants.map fun e => weight e.phase).sum

theorem sum_modify {α : Type} (value : α → Nat) (f : α → α) {l : List α} {i : Nat} {a : α}
    (h : l[i]? = some a) :
    ((l.modify i f).map value).sum + value a = (l.map value).sum + value (f a) := by
  induction l generalizing i with
  | nil => cases h
  | cons b l ih =>
    cases i with
    | zero =>
      cases h
      simp only [modify_zero_cons, map_cons, sum_cons]
      omega
    | succ i =>
      have hl := ih (i := i) h
      simp only [modify_succ_cons, map_cons, sum_cons]
      omega

section Drain

variable {c c' : Coordination} {i : Nat} {space : SpaceId} {phase next : Phase} {m : Move}
  {moves : List Move}

theorem backlog_setPhase (hin : c.IsIn i space phase) :
    backlog (c.setPhase i next) + weight phase = backlog c + weight next := by
  have h := sum_modify (fun e : Entrant => weight e.phase) (fun e => { e with phase := next }) hin
  dsimp only at h
  simp only [backlog, Coordination.setPhase]
  omega

/-- Handling a command grants at most one waiter, and moves nobody else. -/
theorem handle_cases (c : Coordination) (command : Command) :
    ∃ active, c.handle command = { c with active } ∨
      ∃ j, c.receives j = true ∧ c.handle command = { c.setPhase j .granted with active } := by
  cases command with
  | enter sp j =>
    rw [handle]
    split
    next => exact ⟨_, .inl rfl⟩
    next =>
      split
      next hj => exact ⟨_, .inr ⟨j, hj, rfl⟩⟩
      next => exact ⟨_, .inl rfl⟩
  | leave sp =>
    rw [handle, grantNext]
    split
    next => exact ⟨_, .inl rfl⟩
    next waiters _ =>
      rcases grantFirst_cases { c with active := c.active.erase sp } sp waiters with
        ⟨-, heq⟩ | ⟨_, j, rest, -, -, hj, heq⟩
      · exact ⟨_, .inl heq⟩
      · exact ⟨_, .inr ⟨j, hj, heq⟩⟩

theorem backlog_handle_le (c : Coordination) (command : Command) :
    backlog (c.handle command) ≤ backlog c := by
  obtain ⟨active, heq | ⟨j, hj, heq⟩⟩ := handle_cases c command
  · rw [heq]
    exact Nat.le_refl _
  · obtain ⟨sp, hin⟩ := receives_iff.mp hj
    have : backlog (c.setPhase j .granted) + _ = backlog c + weight .granted := backlog_setPhase hin
    rw [heq]
    change backlog (c.setPhase j .granted) ≤ backlog c
    simp only [weight] at this
    omega

theorem backlog_lt_of_drains (h : Drains c m) : backlog (c.move m) < backlog c := by
  cases m with
  | enter sp => cases h
  | cancel i => cases h
  | handle =>
    rw [Coordination.move]
    cases hinbox : c.inbox with
    | nil => exact absurd hinbox h
    | cons command inbox =>
      refine lt_of_le_of_lt (backlog_handle_le _ _) ?_
      simp [backlog, hinbox]
  | poll i =>
    obtain ⟨sp, hin⟩ := h
    have hmove : c.move (.poll i) = c.setPhase i .holding := by
      rw [Coordination.move, show c.entrants[i]? = _ from hin]
    have : backlog (c.setPhase i .holding) + _ = backlog c + weight .holding := backlog_setPhase hin
    rw [hmove]
    simp only [weight] at this
    omega
  | drop i =>
    obtain ⟨sp, hin⟩ := h
    have hmove : backlog (c.move (.drop i)) = backlog (c.setPhase i .finished) + 1 := by
      rw [Coordination.move, show c.entrants[i]? = _ from hin]
      simp only [backlog, Coordination.setPhase, length_append, length_singleton]
      omega
    have : backlog (c.setPhase i .finished) + _ = backlog c + weight .finished := backlog_setPhase hin
    rw [hmove]
    simp only [weight] at this
    omega

/-- Draining ends. -/
theorem Drain.length_le (h : Drain c moves c') : moves.length ≤ backlog c := by
  induction h with
  | nil => exact Nat.zero_le _
  | cons hm _ ih =>
    have := backlog_lt_of_drains hm
    rw [length_cons]
    omega

/-- The phases of a call that nobody drops on the way. -/
def undisturbed : Phase → Bool
  | .waiting => true
  | .granted => true
  | .holding => true
  | .finished => true
  | .cancelled => false
  | .abandoned => false

theorem undisturbed_setPhase {j : Nat} (hnext : undisturbed next = true)
    (h : ∃ phase, undisturbed phase = true ∧ c.IsIn j space phase) :
    ∃ phase, undisturbed phase = true ∧ (c.setPhase i next).IsIn j space phase := by
  obtain ⟨phase, hphase, hin⟩ := h
  by_cases hij : i = j
  · exact ⟨next, hnext, isIn_setPhase_iff.mpr (by rw [if_pos hij]; exact ⟨rfl, phase, hin⟩)⟩
  · exact ⟨phase, hphase, isIn_setPhase_iff.mpr (by rwa [if_neg hij])⟩

theorem undisturbed_handle (command : Command)
    (h : ∃ phase, undisturbed phase = true ∧ c.IsIn i space phase) :
    ∃ phase, undisturbed phase = true ∧ (c.handle command).IsIn i space phase := by
  obtain ⟨active, heq | ⟨j, -, heq⟩⟩ := handle_cases c command
  · rw [heq]
    exact h
  · rw [heq]
    exact undisturbed_setPhase (c := c) rfl h

/-- Draining drops nobody. -/
theorem Drain.undisturbed (h : Drain c moves c')
    (hin : ∃ phase, undisturbed phase = true ∧ c.IsIn i space phase) :
    ∃ phase, undisturbed phase = true ∧ c'.IsIn i space phase := by
  induction h with
  | nil => exact hin
  | @cons c c' m moves hm _ ih =>
    refine ih ?_
    cases m with
    | enter sp => cases hm
    | cancel j => cases hm
    | handle =>
      rw [Coordination.move]
      cases c.inbox with
      | nil => exact hin
      | cons command inbox => exact undisturbed_handle command hin
    | poll j =>
      rw [Coordination.move]
      split
      next => exact undisturbed_setPhase rfl hin
      next => exact hin
    | drop j =>
      rw [Coordination.move]
      split
      next => exact undisturbed_setPhase (c := c) rfl hin
      next => exact hin

theorem Drain.sound (h : Drain c moves c') (hc : Sound c) : Sound c' := by
  induction h with
  | nil => exact hc
  | cons _ _ ih => exact ih (hc.move _)

end Drain

/-! ## Nothing is stranded -/

/-- No grant was abandoned. -/
def NoneAbandoned (c : Coordination) : Prop := ∀ i space, ¬ c.IsIn i space .abandoned

/-- No future is dropped between its grant and its permit. -/
def GrantsKept (moves : List Move) : Prop :=
  ∀ before i rest, moves = before ++ .cancel i :: rest →
    ∀ space, ¬ (after before).IsIn i space .granted

section Stranded

variable {c : Coordination} {space : SpaceId}

theorem abandoned_of_setPhase {i j : Nat} {next : Phase} (hnext : next ≠ .abandoned)
    (h : (c.setPhase i next).IsIn j space .abandoned) : c.IsIn j space .abandoned := by
  rw [isIn_setPhase_iff] at h
  split at h
  next => exact absurd h.1.symm hnext
  next => exact h

theorem NoneAbandoned.handle (h : NoneAbandoned c) (command : Command) :
    NoneAbandoned (c.handle command) := by
  intro i space hin
  obtain ⟨active, heq | ⟨j, -, heq⟩⟩ := handle_cases c command
  · rw [heq] at hin
    exact h i space hin
  · rw [heq] at hin
    exact h i space (abandoned_of_setPhase (c := c) (by simp) hin)

theorem NoneAbandoned.move (h : NoneAbandoned c) (m : Move)
    (hm : ∀ i, m = .cancel i → ∀ space, ¬ c.IsIn i space .granted) :
    NoneAbandoned (c.move m) := by
  cases m with
  | enter sp =>
    intro i space hin
    rcases isIn_enter_iff.mp hin with hin | ⟨-, -, hphase⟩
    · exact h i space hin
    · cases hphase
  | handle =>
    rw [Coordination.move]
    cases c.inbox with
    | nil => exact h
    | cons command inbox => exact NoneAbandoned.handle (c := { c with inbox }) h command
  | poll i =>
    rw [Coordination.move]
    split
    next => exact fun j space hin => h j space (abandoned_of_setPhase (by simp) hin)
    next => exact h
  | cancel i =>
    rw [Coordination.move]
    split
    next => exact fun j space hin => h j space (abandoned_of_setPhase (by simp) hin)
    next sp hin => exact absurd hin (hm i rfl sp)
    next => exact h
  | drop i =>
    rw [Coordination.move]
    split
    next => exact fun j space hin => h j space (abandoned_of_setPhase (c := c) (by simp) hin)
    next => exact h

variable {moves : List Move}

theorem noneAbandoned_after (h : GrantsKept moves) : NoneAbandoned (after moves) := by
  induction moves using List.reverseRecOn with
  | nil => simp [NoneAbandoned, Coordination.initial, IsIn]
  | append_singleton moves m ih =>
    rw [after_concat]
    refine (ih fun before i rest heq => ?_).move m fun i hm => ?_
    · exact h before i (rest ++ [m]) (by rw [heq]; simp)
    · exact h moves i [] (by rw [hm])

theorem Drain.noneAbandoned {c' : Coordination} (h : Drain c moves c') (hc : NoneAbandoned c) :
    NoneAbandoned c' := by
  induction h with
  | nil => exact hc
  | @cons c c' m moves hm _ ih =>
    refine ih (hc.move m fun i hi => ?_)
    subst hi
    cases hm

/-- A taken space is held, about to be given back, or granted to someone who will take it. -/
theorem held_of_taken (h : Sound c) (hkept : NoneAbandoned c)
    (hactive : (c.active.get space).isSome = true) :
    (∃ i, c.IsIn i space .holding) ∨ .leave space ∈ c.inbox ∨ ∃ i, c.IsIn i space .granted := by
  rcases (h.owned space).taken.mpr hactive with ⟨i, phase, howns, hin⟩ | hpos
  · cases phase with
    | waiting => cases howns
    | granted => exact Or.inr (Or.inr ⟨i, hin⟩)
    | holding => exact Or.inl ⟨i, hin⟩
    | finished => cases howns
    | cancelled => cases howns
    | abandoned => exact absurd hin (hkept i space)
  · exact Or.inr (Or.inl (count_pos_iff.mp hpos))

/-- When nothing is left to do, nobody waits. -/
theorem not_waiting_of_drained (h : Sound c) (hkept : NoneAbandoned c)
    (hdrained : ∀ m, ¬ Drains c m) (i : Nat) (space : SpaceId) : ¬ c.IsIn i space .waiting := by
  intro hwaiting
  have hinbox : c.inbox = [] := not_not.mp (hdrained .handle)
  rcases h.placed.waiting i space hwaiting with hmem | ⟨waiters, hget, -⟩
  · rw [hinbox] at hmem
    cases hmem
  · rcases held_of_taken h hkept (by rw [hget]; rfl) with ⟨j, hj⟩ | hmem | ⟨j, hj⟩
    · exact hdrained (.drop j) ⟨space, hj⟩
    · rw [hinbox] at hmem
      cases hmem
    · exact hdrained (.poll j) ⟨space, hj⟩

end Stranded

/-- At most one permit of a space exists at any time.  If no future is dropped between its
grant and its permit, a taken space is held, about to be given back or granted to a live
waiter; draining ends, and then every waiter was granted. -/
theorem permits_exclusive_and_kept (moves : List Move) :
    (∀ i j space, (after moves).IsIn i space .holding → (after moves).IsIn j space .holding →
      i = j) ∧
    (GrantsKept moves →
      (∀ space, ((after moves).active.get space).isSome = true →
        (∃ i, (after moves).IsIn i space .holding) ∨ .leave space ∈ (after moves).inbox ∨
          ∃ i, (after moves).IsIn i space .granted) ∧
      ∀ drain c', Drain (after moves) drain c' →
        drain.length ≤ backlog (after moves) ∧
        ((∀ m, ¬ Drains c' m) → ∀ i space, (after moves).IsIn i space .waiting →
          c'.IsIn i space .finished)) := by
  have hsound := sound_after moves
  refine ⟨fun i j space hi hj => ?_, fun hkept => ⟨fun space hactive => ?_, ?_⟩⟩
  · exact (hsound.owned space).unique i j ⟨.holding, rfl, hi⟩ ⟨.holding, rfl, hj⟩
  · exact held_of_taken hsound (noneAbandoned_after hkept) hactive
  · intro drain c' hdrain
    refine ⟨hdrain.length_le, fun hdrained i space hwaiting => ?_⟩
    have hnone := not_waiting_of_drained (hdrain.sound hsound)
      (hdrain.noneAbandoned (noneAbandoned_after hkept)) hdrained i space
    obtain ⟨phase, hphase, hin⟩ := hdrain.undisturbed ⟨.waiting, rfl, hwaiting⟩
    -- of the phases a drained call can be in, only the last is left
    cases phase with
    | waiting => exact absurd hin hnone
    | granted => exact absurd ⟨space, hin⟩ (hdrained (.poll i))
    | holding => exact absurd ⟨space, hin⟩ (hdrained (.drop i))
    | finished => exact hin
    | cancelled => cases hphase
    | abandoned => cases hphase

/-- Nothing is left to do. -/
theorem not_drains {c : Coordination} (hinbox : c.inbox = [])
    (hphase : ∀ e ∈ c.entrants, e.phase ≠ .granted ∧ e.phase ≠ .holding) (m : Move) :
    ¬ Drains c m := by
  cases m with
  | enter space => exact id
  | handle => exact not_not.mpr hinbox
  | poll i =>
    rintro ⟨space, hin⟩
    exact (hphase _ (mem_of_getElem? hin)).1 rfl
  | cancel i => exact id
  | drop i =>
    rintro ⟨space, hin⟩
    exact (hphase _ (mem_of_getElem? hin)).2 rfl

/-- A space to work on. -/
def someSpace : SpaceId := ByteArr.zero 16

/-- One call is granted, a second was cancelled while it waited, and a third waits. -/
def cancelledWaiter : List Move :=
  [.enter someSpace, .handle, .enter someSpace, .handle, .cancel 1, .enter someSpace]

/-- Every permit is taken and dropped. -/
def cancelledWaiterDrain : List Move :=
  [.poll 0, .handle, .drop 0, .handle, .poll 2, .drop 2, .handle]

theorem permits_exclusive_and_kept_cancelledWaiter :
    GrantsKept cancelledWaiter ∧
      (after cancelledWaiter).entrants.map Entrant.phase = [.granted, .cancelled, .waiting] ∧
      ((∃ i, (after cancelledWaiter).IsIn i someSpace .holding) ∨
        .leave someSpace ∈ (after cancelledWaiter).inbox ∨
          ∃ i, (after cancelledWaiter).IsIn i someSpace .granted) ∧
      ∃ c', Drain (after cancelledWaiter) cancelledWaiterDrain c' ∧ (∀ m, ¬ Drains c' m) ∧
        c'.IsIn 2 someSpace .finished := by
  have hkept : GrantsKept cancelledWaiter := by
    intro before i rest heq space hgranted
    rcases before with _ | ⟨_, _ | ⟨_, _ | ⟨_, _ | ⟨_, _ | ⟨_, _ | ⟨_, before⟩⟩⟩⟩⟩⟩ <;>
      simp [cancelledWaiter] at heq
    obtain ⟨rfl, rfl, rfl, rfl, rfl, -⟩ := heq
    cases hgranted
  obtain ⟨hheld, hends⟩ := (permits_exclusive_and_kept cancelledWaiter).2 hkept
  have hdrain : Drain (after cancelledWaiter) cancelledWaiterDrain
      (after (cancelledWaiter ++ cancelledWaiterDrain)) :=
    .cons ⟨someSpace, rfl⟩ <| .cons (cons_ne_nil _ _) <| .cons ⟨someSpace, rfl⟩ <|
      .cons (cons_ne_nil _ _) <| .cons ⟨someSpace, rfl⟩ <| .cons ⟨someSpace, rfl⟩ <|
      .cons (cons_ne_nil _ _) (.nil _)
  have hdrained : ∀ m, ¬ Drains (after (cancelledWaiter ++ cancelledWaiterDrain)) m :=
    not_drains rfl (by decide)
  exact ⟨hkept, rfl, hheld someSpace rfl, _, hdrain, hdrained,
    (hends _ _ hdrain).2 hdrained 2 someSpace rfl⟩

/-- A future dropped after its grant was sent strands its space: it stays taken without a
permit, a command to give it back or a grant, and the next waiter waits forever. -/
theorem abandoned_grant_strands :
    ∃ moves : List Move, ((after moves).active.get someSpace).isSome = true ∧
      ¬ ((∃ i, (after moves).IsIn i someSpace .holding) ∨ .leave someSpace ∈ (after moves).inbox ∨
        ∃ i, (after moves).IsIn i someSpace .granted) ∧
      (∀ m, ¬ Drains (after moves) m) ∧ (after moves).IsIn 1 someSpace .waiting := by
  let moves : List Move :=
    [.enter someSpace, .handle, .cancel 0, .enter someSpace, .handle]
  have hinbox : (after moves).inbox = [] := rfl
  have hdrained : ∀ m, ¬ Drains (after moves) m := not_drains hinbox (by decide)
  refine ⟨moves, rfl, ?_, hdrained, rfl⟩
  rintro (⟨i, hi⟩ | hmem | ⟨i, hi⟩)
  · exact hdrained (.drop i) ⟨someSpace, hi⟩
  · rw [hinbox] at hmem
    cases hmem
  · exact hdrained (.poll i) ⟨someSpace, hi⟩

end Homebase.Properties
