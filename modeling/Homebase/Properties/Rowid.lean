import Homebase.Foundation.Reservation
import Homebase.Foundation.Agree
import Homebase.Multilite.Rowid

set_option autoImplicit false

/-!
# Properties: rowids never repeat

A rowid is a slot and an offset in it, so it is a number, a lease is an interval of numbers, and what
the tables have reserved is a set of numbers: the slots that were ever chosen, the active one up to
what is leased of it.  A lease is an interval that was not reserved.  Unique rowids are then an
instance of an account of reservations.
-/

namespace Homebase.Multilite.Rowid

open Foundation Homebase.Core List

/-! ## Packing -/

theorem slotCapacity_eq : slotCapacity = 2 ^ 20 := by decide

theorem maxSlot_eq : maxSlot = 2 ^ 43 - 1 := by decide

variable {slot : U64}

/-- A rowid is a slot and an offset in it. -/
theorem compose_eq {offset : U32} (hslot : slot.val ≤ maxSlot)
    (hoffset : offset.val < slotCapacity) :
    compose slot offset = .ok (slot.val * 2 ^ 20 + offset.val) := by
  rw [maxSlot_eq] at hslot
  rw [slotCapacity_eq] at hoffset
  have hshift : slot.val <<< offsetBits = slot.val * 2 ^ 20 := Nat.shiftLeft_eq _ _
  have hpacked : slot.val <<< offsetBits % 2 ^ 64 ||| offset.val =
      slot.val * 2 ^ 20 + offset.val := by
    rw [hshift, Nat.mod_eq_of_lt (by omega), ← hshift]
    exact (Nat.shiftLeft_add_eq_or_of_lt hoffset _).symm
  rw [compose, hpacked, if_pos (by omega)]

theorem slotOf_val (tag : U16) (suffix : U32) :
    (slotOf tag suffix).val = tag.val * 2 ^ 27 + suffix.val % 2 ^ 27 := by
  have hmask : suffix.val &&& randomSlotMask = suffix.val % 2 ^ 27 :=
    Nat.and_two_pow_sub_one_eq_mod _ 27
  have hpacked : tag.val <<< randomSlotBits ||| (suffix.val &&& randomSlotMask) =
      tag.val * 2 ^ 27 + suffix.val % 2 ^ 27 := by
    rw [hmask, ← Nat.shiftLeft_eq]
    exact (Nat.shiftLeft_add_eq_or_of_lt (Nat.mod_lt _ (by decide)) _).symm
  have htag := tag.isLt
  rw [slotOf, hpacked, U64.val_ofNat (by omega)]

theorem slotTag_val (hslot : slot.val ≤ maxSlot) : (slotTag slot).val = slot.val / 2 ^ 27 := by
  rw [maxSlot_eq] at hslot
  have hshift : slot.val >>> randomSlotBits = slot.val / 2 ^ 27 := Nat.shiftRight_eq_div_pow _ _
  rw [slotTag, hshift]
  exact Nat.mod_eq_of_lt (by omega)

/-- A slot belongs to the device with a tag. -/
structure OfTag (tag : U16) (slot : U64) : Prop where
  pos : 0 < slot.val
  le_max : slot.val ≤ maxSlot
  tagged : slotTag slot = tag

theorem ofTag_slotOf {tag : U16} (htag : tag ≠ 0) (suffix : U32) : OfTag tag (slotOf tag suffix) := by
  have hval := slotOf_val tag suffix
  have hpos : 0 < tag.val := Nat.pos_of_ne_zero fun h => htag (Fin.ext h)
  have hlt := tag.isLt
  have hle : (slotOf tag suffix).val ≤ maxSlot := by
    rw [maxSlot_eq]
    omega
  refine ⟨by omega, hle, Fin.ext ?_⟩
  rw [slotTag_val hle]
  omega

theorem deviceTagFrom_ne_zero {sha256 : Bytes → ByteArr 32} {device : DeviceId} {left : Nat}
    {counter : U32} {tag : U16} (h : deviceTagFrom sha256 device left counter = some tag) :
    tag ≠ 0 := by
  induction left generalizing counter with
  | zero => cases h
  | succ left ih =>
    rw [deviceTagFrom] at h
    split at h
    · next hne => exact Option.some.inj h ▸ hne
    · exact ih h

/-! ## Numbers -/

/-- The rowids a lease has left. -/
def RowidLease.numbers (lease : RowidLease) : Set Nat :=
  { n | n / 2 ^ 20 = lease.slot.val ∧ lease.next.val ≤ n % 2 ^ 20 ∧ n % 2 ^ 20 < lease.finish.val }

/-- A lease lies in one slot. -/
structure RowidLease.Fits (lease : RowidLease) : Prop where
  slot : lease.slot.val ≤ maxSlot
  ordered : lease.next.val ≤ lease.finish.val
  within : lease.finish.val ≤ slotCapacity

/-- The rowids the tables have reserved. -/
def Tables.reserved (tables : Tables) : Set Nat :=
  { n | ∃ state slot, tables.state = some state ∧ slot ∈ tables.slots.toList ∧
    slot.val = n / 2 ^ 20 ∧ (slot = state.activeSlot → n % 2 ^ 20 < state.leasedThrough.val) }

/-- The rowids a file has reserved. -/
def File.reserved (file : File) : Set Nat :=
  { n | ∃ tables, file = some tables ∧ n ∈ tables.reserved }

/-- A rowid drawn from a lease was left in it and is not left in what remains. -/
theorem RowidLease.Fits.nextRowid {lease : RowidLease} (h : lease.Fits)
    (hleft : lease.next ≠ lease.finish) :
    ∃ rowid rest, lease.nextRowid = .ok (some (rowid, rest)) ∧ rest.Fits ∧
      rowid ∈ lease.numbers ∧ rest.numbers ⊆ lease.numbers ∧ rowid ∉ rest.numbers := by
  have hcap := slotCapacity_eq ▸ h.within
  have hlt : lease.next.val < lease.finish.val :=
    lt_of_le_of_ne h.ordered fun hval => hleft (Fin.ext hval)
  have hnext : (lease.next + 1).val = lease.next.val + 1 := by
    have hone : ((1 : U32) : Nat) = 1 := rfl
    rw [Fin.val_add, hone]
    exact Nat.mod_eq_of_lt (by omega)
  have hdiv : (lease.slot.val * 2 ^ 20 + lease.next.val) / 2 ^ 20 = lease.slot.val := by omega
  have hmod : (lease.slot.val * 2 ^ 20 + lease.next.val) % 2 ^ 20 = lease.next.val := by omega
  refine ⟨_, { lease with next := lease.next + 1 }, ?_, ⟨h.slot, ?_, h.within⟩, ⟨hdiv, ?_, ?_⟩, ?_,
    ?_⟩
  · rw [RowidLease.nextRowid, if_neg hleft, compose_eq h.slot (slotCapacity_eq ▸ by omega)]
    rfl
  · exact hnext.le.trans hlt
  · rw [hmod]
  · rw [hmod]
    exact hlt
  · rintro n ⟨hslot, hlow, hhigh⟩
    rw [hnext] at hlow
    exact ⟨hslot, by omega, hhigh⟩
  · rintro ⟨-, hlow, -⟩
    rw [hnext, hmod] at hlow
    omega

/-! ## Tables -/

/-- Tables that pass `validate`. -/
structure Tables.Sound (sha256 : Bytes → ByteArr 32) (tables : Tables) (state : DurableState)
    (tag : U16) : Prop where
  row : tables.state = some state
  device : deviceTag sha256 state.device = some tag
  active : state.activeSlot ∈ tables.slots.toList
  within : state.leasedThrough.val ≤ slotCapacity
  slots : ∀ slot ∈ tables.slots.toList, OfTag tag slot

section Tables

variable {sha256 : Bytes → ByteArr 32} {tables tables' : Tables} {state : DurableState} {tag : U16}
  {suffix : Suffixes} {lease : RowidLease} {device : DeviceId}

theorem requireTag_eq_ok_iff :
    requireTag sha256 device = .ok tag ↔ deviceTag sha256 device = some tag := by
  rw [requireTag]
  cases deviceTag sha256 device <;> simp

variable {slots : OrdSet U64} {slot : U64}

theorem contains_iff : slots.contains slot = true ↔ slot ∈ slots.toList := by
  rw [OrdSet.mem_toList_iff, OrdMap.contains]
  cases slots.get slot <;> simp

theorem mem_toList_insert {other : U64} :
    other ∈ OrdSet.toList (OrdMap.insert slots slot ()) ↔ other = slot ∨ other ∈ slots.toList := by
  rw [OrdSet.mem_toList_iff, OrdSet.mem_toList_iff, OrdMap.get_insert]
  by_cases h : other = slot <;> simp [h]

theorem Tables.Sound.validate (h : tables.Sound sha256 state tag) :
    validate sha256 (some tables) = .ok () := by
  have hstate : loadState tables = .ok state := by rw [loadState, h.row]
  have hslots : tables.slots.toList.any (fun slot => decide (slot = 0) ||
      decide (maxSlot < slot.val) || decide (slotTag slot ≠ tag)) = false := by
    rw [any_eq_false]
    intro slot hslot
    have hof := h.slots slot hslot
    have hne : slot ≠ 0 := fun hzero => by
      have := hof.pos
      rw [hzero] at this
      exact lt_irrefl _ this
    simp [hne, hof.le_max, hof.tagged]
  have hactive : slotTag state.activeSlot = tag := (h.slots _ h.active).tagged
  have hnonempty : tables.slots.toList.isEmpty = false := by
    rw [isEmpty_eq_false_iff]
    exact ne_nil_of_mem h.active
  rw [Rowid.validate]
  simp only [hstate, ok_bind, requireTag_eq_ok_iff.mpr h.device, hactive, ne_eq, not_true_eq_false,
    false_or, not_lt.mpr h.within, if_false, hnonempty, contains_iff.mpr h.active, hslots]
  rfl

variable {slots' : OrdSet U64}

theorem insertSlot_eq_some (h : insertSlot slots slot = some slots') :
    slot ∉ slots.toList ∧ slots' = OrdMap.insert slots slot () := by
  rw [insertSlot] at h
  split at h
  · next hnew =>
    rw [Bool.and_eq_true, Bool.not_eq_true'] at hnew
    refine ⟨fun hmem => ?_, (Option.some.inj h).symm⟩
    rw [contains_iff.mpr hmem] at hnew
    cases hnew.2
  · cases h

/-- A slot that was chosen is new and belongs to the device. -/
theorem insertUnusedSlot_spec (htag : tag ≠ 0) {attempts drawn : Nat}
    (h : insertUnusedSlot tag suffix attempts drawn slots = .ok (slot, slots')) :
    OfTag tag slot ∧ slot ∉ slots.toList ∧ slots' = OrdMap.insert slots slot () := by
  induction attempts generalizing drawn with
  | zero => cases h
  | succ attempts ih =>
    rw [insertUnusedSlot, bind_eq_ok_iff] at h
    obtain ⟨random, -, h⟩ := h
    dsimp only at h
    split at h
    · next inserted hinsert =>
      cases h
      obtain ⟨hnew, rfl⟩ := insertSlot_eq_some hinsert
      exact ⟨ofTag_slotOf htag random, hnew, rfl⟩
    · exact ih h

/-- `initialize` makes sound tables. -/
theorem initializeFile_spec {file : File}
    (h : initializeFile sha256 device suffix file = .ok tables) :
    file = none ∧ ∃ state tag, tables.Sound sha256 state tag := by
  cases file with
  | some _ => cases h
  | none =>
    rw [initializeFile] at h
    obtain ⟨tag, htag, h⟩ := of_bind h
    obtain ⟨⟨slot, slots⟩, hslot, h⟩ := of_bind h
    have hdevice := requireTag_eq_ok_iff.mp htag
    obtain ⟨hof, -, rfl⟩ := insertUnusedSlot_spec (deviceTagFrom_ne_zero hdevice) hslot
    dsimp only at h
    split at h
    · cases h
      refine ⟨rfl, ⟨device, slot, 0⟩, tag, ⟨rfl, hdevice, ?_, Nat.zero_le _, ?_⟩⟩
      · exact mem_toList_insert.mpr (.inl rfl)
      · intro other hother
        rcases mem_toList_insert.mp hother with rfl | hother
        · exact hof
        · rw [OrdSet.mem_toList_iff, OrdMap.get_empty] at hother
          cases hother
    · cases h

variable {start : U32}

/-- A lease starts in a slot of the device, and when the slot is not a new one, where the leases of
the active slot end. -/
theorem leaseStart_spec (h : tables.Sound sha256 state tag)
    (hstart : leaseStart sha256 tables state suffix = .ok (slot, start, slots)) :
    OfTag tag slot ∧ start.val < slotCapacity ∧
      (∀ other, other ∈ slots.toList ↔ other = slot ∨ other ∈ tables.slots.toList) ∧
      (slot ∈ tables.slots.toList → slot = state.activeSlot ∧ start = state.leasedThrough) := by
  rw [leaseStart] at hstart
  split at hstart
  · obtain ⟨tag', htag', hstart⟩ := of_bind hstart
    obtain ⟨⟨slot', slots'⟩, hslot, hstart⟩ := of_bind hstart
    cases hstart
    have hsame : tag' = tag :=
      Option.some.inj ((requireTag_eq_ok_iff.mp htag').symm.trans h.device)
    subst hsame
    obtain ⟨hof, hnew, rfl⟩ := insertUnusedSlot_spec (deviceTagFrom_ne_zero h.device) hslot
    exact ⟨hof, by decide, fun other => mem_toList_insert, fun hold => absurd hold hnew⟩
  · next hleft =>
    cases hstart
    refine ⟨h.slots _ h.active, lt_of_le_of_ne h.within hleft, fun other => ?_, fun _ => ⟨rfl, rfl⟩⟩
    exact ⟨.inr, fun hother => hother.elim (fun heq => heq ▸ h.active) id⟩

theorem leaseEnd_val (hstart : start.val < slotCapacity) :
    start.val < (leaseEnd start).val ∧ (leaseEnd start).val ≤ slotCapacity := by
  have hcap := slotCapacity_eq
  have hsize : leaseSize = 1024 := by decide
  rw [leaseEnd, U32.val_ofNat (by omega)]
  omega

/-- What a lease that was given out is made of. -/
theorem leaseWith_eq_ok (hrow : tables.state = some state)
    (h : leaseWith sha256 tables suffix = .ok (lease, tables')) :
    ∃ slots, leaseStart sha256 tables state suffix = .ok (lease.slot, lease.next, slots) ∧
      lease.finish = leaseEnd lease.next ∧
      tables' = ⟨some { state with activeSlot := lease.slot, leasedThrough := lease.finish },
        slots⟩ := by
  have hstate : loadState tables = .ok state := by rw [loadState, hrow]
  rw [leaseWith, hstate, ok_bind] at h
  obtain ⟨⟨slot, start, slots⟩, hstart, h⟩ := of_bind h
  obtain ⟨⟨updated, changed⟩, hupdate, h⟩ := of_bind h
  dsimp only at h hupdate
  simp only [updateState, hrow, and_self, if_true] at hupdate
  split at hupdate
  · cases hupdate
    cases h
    exact ⟨slots, hstart, rfl, rfl⟩
  · cases hupdate

/-- A lease reserves rowids that were not reserved, and keeps the tables sound. -/
theorem leaseWith_spec (h : tables.Sound sha256 state tag)
    (hlease : leaseWith sha256 tables suffix = .ok (lease, tables')) :
    (∃ state', tables'.Sound sha256 state' tag ∧ state'.device = state.device) ∧
      lease.Fits ∧ lease.next ≠ lease.finish ∧ (∀ n ∈ lease.numbers, n ∉ tables.reserved) ∧
      lease.numbers ⊆ tables'.reserved ∧ tables.reserved ⊆ tables'.reserved := by
  obtain ⟨slots, hstart, hfinish, rfl⟩ := leaseWith_eq_ok h.row hlease
  obtain ⟨hof, hbelow, hslots, hold⟩ := leaseStart_spec h hstart
  obtain ⟨hlt, hcap⟩ := leaseEnd_val hbelow
  rw [← hfinish] at hlt hcap
  have hchosen : lease.slot ∈ slots.toList := (hslots _).mpr (.inl rfl)
  refine ⟨⟨_, ⟨rfl, h.device, hchosen, hcap, ?_⟩, rfl⟩, ⟨hof.le_max, hlt.le, hcap⟩, ?_, ?_, ?_, ?_⟩
  · intro slot hslot
    rcases (hslots slot).mp hslot with rfl | hslot
    · exact hof
    · exact h.slots slot hslot
  · exact fun heq => absurd (congrArg Fin.val heq) hlt.ne
  · rintro n ⟨hn, hlow, -⟩ ⟨state', slot, hrow, hslot, hval, hthrough⟩
    obtain rfl : state = state' := Option.some.inj (h.row.symm.trans hrow)
    obtain rfl : slot = lease.slot := Fin.ext (hval.trans hn)
    obtain ⟨hactive, hnext⟩ := hold hslot
    exact absurd (hthrough hactive) (not_lt.mpr (hnext ▸ hlow))
  · rintro n ⟨hn, -, hhigh⟩
    exact ⟨_, lease.slot, rfl, hchosen, hn.symm, fun _ => hhigh⟩
  · rintro n ⟨state', slot, hrow, hslot, hval, hthrough⟩
    obtain rfl : state = state' := Option.some.inj (h.row.symm.trans hrow)
    refine ⟨_, slot, rfl, (hslots slot).mpr (.inr hslot), hval, ?_⟩
    rintro rfl
    obtain ⟨hactive, hnext⟩ := hold hslot
    exact (hthrough hactive).trans (hnext ▸ hlt)

end Tables

/-! ## Runs -/

namespace Replica

variable {sha256 : Bytes → ByteArr 32}

/-- The leases a process has in memory. -/
def held (replica : Replica) : List RowidLease := replica.cursor.toList ++ replica.leases

/-- What holds of a replica at any time. -/
structure Kept (sha256 : Bytes → ByteArr 32) (replica : Replica) : Prop where
  sound : ∀ tables, replica.file = some tables → ∃ state tag, tables.Sound sha256 state tag
  fits : ∀ lease ∈ replica.held, lease.Fits
  account : Accounted replica.file.reserved (replica.held.map RowidLease.numbers) replica.handed

theorem kept_new : Kept sha256 new where
  sound := nofun
  fits := by simp [held, new]
  account := Accounted.empty.mono (Set.empty_subset _)

variable {replica : Replica}

/-- The tables a replica keeps. -/
theorem reserved_some (tables : Tables) : File.reserved (some tables) = tables.reserved := by
  ext n
  constructor
  · rintro ⟨_, ⟨⟩, hn⟩
    exact hn
  · exact fun hn => ⟨tables, rfl, hn⟩

variable {suffix : Suffixes} {tables : Tables}

/-- A lease is accounted for beside everything a process holds. -/
theorem Kept.lease (h : Kept sha256 replica) {lease : RowidLease}
    (hlease : Rowid.lease sha256 replica.file suffix = .ok (lease, tables)) :
    (∃ state tag, tables.Sound sha256 state tag) ∧ lease.Fits ∧ lease.next ≠ lease.finish ∧
      Accounted (File.reserved (some tables))
        (lease.numbers :: replica.held.map RowidLease.numbers) replica.handed := by
  have haccount := h.account
  cases hfile : replica.file with
  | none =>
    rw [hfile] at hlease
    cases hlease
  | some before =>
    rw [hfile] at hlease
    obtain ⟨state, tag, hsound⟩ := h.sound before hfile
    obtain ⟨⟨state', hsound', -⟩, hfits, hleft, hfree, hfresh, hkeep⟩ :=
      leaseWith_spec hsound hlease
    rw [hfile, reserved_some] at haccount
    rw [reserved_some]
    exact ⟨⟨state', tag, hsound'⟩, hfits, hleft, haccount.reserve hfree hfresh hkeep⟩

/-- A rowid drawn from the lease of the cursor. -/
theorem Kept.draw_cursor (h : Kept sha256 replica) {lease : RowidLease}
    (hcursor : replica.cursor = some lease) (hleft : lease.next ≠ lease.finish) :
    ∃ rowid rest, lease.nextRowid = .ok (some (rowid, rest)) ∧
      Kept sha256 { replica with cursor := some rest, handed := replica.handed ++ [rowid] } := by
  have hheld : replica.held = lease :: replica.leases := by rw [held, hcursor]; rfl
  have hfits := h.fits
  have haccount := h.account
  rw [hheld] at hfits haccount
  obtain ⟨rowid, rest, hnext, hrest, hmem, hsub, hgone⟩ :=
    (hfits lease mem_cons_self).nextRowid hleft
  refine ⟨rowid, rest, hnext, h.sound, ?_, haccount.take hmem hsub hgone⟩
  intro other hother
  rcases mem_cons.mp hother with rfl | hother
  · exact hrest
  · exact hfits other (mem_cons_of_mem _ hother)

/-- A lease put into the cursor. -/
theorem Kept.install (h : Kept sha256 replica) {lease : RowidLease}
    (hlease : Rowid.lease sha256 replica.file suffix = .ok (lease, tables)) :
    Kept sha256 { replica with file := some tables, cursor := some lease } ∧
      lease.next ≠ lease.finish := by
  obtain ⟨hsound, hfits, hleft, haccount⟩ := h.lease hlease
  refine ⟨⟨?_, ?_, haccount.forget ?_⟩, hleft⟩
  · rintro _ ⟨⟩
    exact hsound
  · intro other hother
    rcases mem_cons.mp hother with rfl | hother
    · exact hfits
    · exact h.fits other (mem_append_right _ hother)
  · -- the lease the cursor had is forgotten
    exact ((sublist_append_right _ _).map _).cons_cons _

/-- The allocator returns, and what it returns is accounted for. -/
theorem Kept.allocate (h : Kept sha256 replica) (suffix : Nat → Suffixes) :
    ∃ file cursor, (∃ rowid,
        Rowid.allocate sha256 suffix 2 0 (replica.file, replica.cursor) =
          some ((file, cursor), .ok rowid) ∧
        Kept sha256 { replica with file, cursor, handed := replica.handed ++ [rowid] }) ∨
      (∃ error,
        Rowid.allocate sha256 suffix 2 0 (replica.file, replica.cursor) =
          some ((file, cursor), .error error) ∧
        Kept sha256 { replica with file, cursor }) := by
  by_cases hleft : ∃ lease, replica.cursor = some lease ∧ lease.next ≠ lease.finish
  · obtain ⟨lease, hcursor, hleft⟩ := hleft
    obtain ⟨rowid, rest, hnext, hkept⟩ := h.draw_cursor hcursor hleft
    refine ⟨_, _, .inl ⟨rowid, ?_, hkept⟩⟩
    simp only [Rowid.allocate, hcursor, Option.map_some, Option.getD_some, hnext]
  · -- the cursor has nothing left, so the first turn leases
    have hempty : (replica.cursor.map RowidLease.nextRowid).getD (.ok none) = .ok none := by
      cases hcursor : replica.cursor with
      | none => rfl
      | some lease =>
        have hused : lease.next = lease.finish := by
          by_contra hne
          exact hleft ⟨lease, hcursor, hne⟩
        rw [Option.map_some, Option.getD_some, RowidLease.nextRowid, if_pos hused]
    cases hlease : Rowid.lease sha256 replica.file (suffix 0) with
    | error error =>
      refine ⟨_, _, .inr ⟨error, ?_, h⟩⟩
      simp only [Rowid.allocate, hempty, hlease]
    | ok leased =>
      obtain ⟨lease, tables⟩ := leased
      obtain ⟨hinstalled, hleft⟩ := h.install hlease
      obtain ⟨rowid, rest, hnext, hkept⟩ := hinstalled.draw_cursor rfl hleft
      refine ⟨_, _, .inl ⟨rowid, ?_, hkept⟩⟩
      simp only [Rowid.allocate, hempty, hlease, Option.map_some, Option.getD_some, hnext]

/-- A rowid drawn from a lease that a caller keeps. -/
theorem Kept.draw (h : Kept sha256 replica) (holder : Nat) : Kept sha256 (replica.draw holder) := by
  rw [Replica.draw]
  split
  · next rowid rest hdrawn =>
    obtain ⟨lease, hlease, hnext⟩ := Option.map_eq_some_iff.mp hdrawn
    obtain ⟨others, hperm, hset⟩ := exists_perm_of_getElem? hlease
    have hheld : replica.held.Perm (lease :: (replica.cursor.toList ++ others)) :=
      (hperm.append_left _).trans perm_middle
    have hafter : (replica.cursor.toList ++ replica.leases.set holder rest).Perm
        (rest :: (replica.cursor.toList ++ others)) :=
      ((hset rest).append_left _).trans perm_middle
    have hleft : lease.next ≠ lease.finish := by
      intro hused
      rw [RowidLease.nextRowid, if_pos hused] at hnext
      cases hnext
    obtain ⟨_, _, hdraw, hrest, hmem, hsub, hgone⟩ :=
      (h.fits lease (hheld.mem_iff.mpr mem_cons_self)).nextRowid hleft
    cases hnext.symm.trans hdraw
    refine ⟨h.sound, ?_, ?_⟩
    · intro other hother
      rcases mem_cons.mp (hafter.mem_iff.mp hother) with rfl | hother
      · exact hrest
      · exact h.fits other (hheld.mem_iff.mpr (mem_cons_of_mem _ hother))
    · have haccount := (h.account.perm (hheld.map _)).take hmem hsub hgone
      exact haccount.perm (hafter.map RowidLease.numbers).symm
  · exact h

theorem Kept.step (h : Kept sha256 replica) (event : Event) :
    Kept sha256 (replica.step sha256 event) := by
  cases event with
  | created device suffix =>
    rw [Replica.step]
    split
    · next tables hcreated =>
      obtain ⟨hnone, hsound⟩ := initializeFile_spec hcreated
      refine ⟨?_, h.fits, h.account.mono ?_⟩
      · rintro _ ⟨⟩
        exact hsound
      · rintro n ⟨before, hbefore, -⟩
        rw [hnone] at hbefore
        cases hbefore
    · exact h
  | leased suffix =>
    rw [Replica.step]
    split
    · next lease tables hleased =>
      obtain ⟨hsound, hfits, -, haccount⟩ := h.lease hleased
      have hheld : (replica.cursor.toList ++ (replica.leases ++ [lease])).Perm
          (lease :: replica.held) := by
        rw [← append_assoc]
        exact perm_append_singleton lease replica.held
      refine ⟨?_, ?_, haccount.perm (hheld.map RowidLease.numbers).symm⟩
      · rintro _ ⟨⟩
        exact hsound
      · intro other hother
        rcases mem_cons.mp (hheld.mem_iff.mp hother) with rfl | hother
        · exact hfits
        · exact h.fits other hother
    · exact h
  | drawn holder => exact h.draw holder
  | allocated suffix =>
    obtain ⟨file, cursor, ⟨rowid, hallocate, hkept⟩ | ⟨error, hallocate, hkept⟩⟩ := h.allocate suffix
    · simpa only [Replica.step, hallocate] using hkept
    · simpa only [Replica.step, hallocate] using hkept
  | restarted => exact ⟨h.sound, nofun, h.account.forget (nil_sublist _)⟩

theorem kept_run (events : List Event) : Kept sha256 (run sha256 events) := by
  have hfold : ∀ (events : List Event) (replica : Replica), Kept sha256 replica →
      Kept sha256 (events.foldl (Replica.step sha256) replica) := by
    intro events
    induction events with
    | nil => exact fun _ h => h
    | cons event rest ih => exact fun replica h => ih _ (h.step event)
  exact hfold events new kept_new

/-- The tag of the device a replica was created for. -/
def tag (sha256 : Bytes → ByteArr 32) (replica : Replica) : Option U16 := do
  let tables ← replica.file
  let state ← tables.state
  deviceTag sha256 state.device

/-- A rowid that was handed out carries the tag of the device. -/
theorem Kept.tagged (h : Kept sha256 replica) {rowid : Nat} (hrowid : rowid ∈ replica.handed) :
    2 ^ 47 ≤ rowid ∧ rowid ≤ 2 ^ 63 - 1 ∧
      ∃ tag, replica.tag sha256 = some tag ∧ rowid / 2 ^ 47 % 2 ^ 16 = tag.val := by
  obtain ⟨tables, hfile, state, slot, hrow, hslot, hval, -⟩ :=
    h.account.handed_reserved rowid hrowid
  obtain ⟨state', tag, hsound⟩ := h.sound tables hfile
  obtain rfl : state = state' := Option.some.inj (hrow.symm.trans hsound.row)
  have htag : replica.tag sha256 = some tag := by
    simp [Replica.tag, hfile, hrow, hsound.device]
  have hof := hsound.slots slot hslot
  have hmax := maxSlot_eq ▸ hof.le_max
  have hslotTag : tag.val = slot.val / 2 ^ 27 := by
    rw [← hof.tagged]
    exact slotTag_val hof.le_max
  have hpos : 0 < tag.val :=
    Nat.pos_of_ne_zero fun hzero => deviceTagFrom_ne_zero hsound.device (Fin.ext hzero)
  have htagged : rowid / 2 ^ 47 = tag.val := by omega
  refine ⟨by omega, by omega, tag, htag, ?_⟩
  rw [htagged]
  exact Nat.mod_eq_of_lt tag.isLt

/-- Rowids never repeat.  In every run of a replica, with whatever suffixes are drawn and however
often it restarts and rotates its slot, the rowids it has handed out are distinct, lie in
`2 ^ 47 .. 2 ^ 63 - 1` and carry the tag of its device, its tables pass validation, and it shares no
rowid with a replica whose device has another tag. -/
theorem rowids_never_repeat (sha256 : Bytes → ByteArr 32) (events : List Event) :
    (run sha256 events).handed.Nodup ∧
    (∀ rowid ∈ (run sha256 events).handed, 2 ^ 47 ≤ rowid ∧ rowid ≤ 2 ^ 63 - 1 ∧
      ∃ tag, (run sha256 events).tag sha256 = some tag ∧ rowid / 2 ^ 47 % 2 ^ 16 = tag.val) ∧
    ((run sha256 events).file ≠ none → validate sha256 (run sha256 events).file = .ok ()) ∧
    ∀ others, (run sha256 others).tag sha256 ≠ (run sha256 events).tag sha256 →
      ∀ rowid ∈ (run sha256 events).handed, rowid ∉ (run sha256 others).handed := by
  have hkept : Kept sha256 (run sha256 events) := kept_run events
  refine ⟨hkept.account.distinct, fun rowid hrowid => hkept.tagged hrowid, fun hfile => ?_,
    fun others hdiffer rowid hrowid hother => ?_⟩
  · obtain ⟨tables, htables⟩ := Option.ne_none_iff_exists'.mp hfile
    obtain ⟨state, tag, hsound⟩ := hkept.sound tables htables
    rw [htables]
    exact hsound.validate
  · obtain ⟨-, -, tag, htag, hbits⟩ := hkept.tagged hrowid
    obtain ⟨-, -, tag', htag', hbits'⟩ := (kept_run others).tagged hother
    refine hdiffer ?_
    rw [htag, htag']
    exact congrArg some (Fin.ext (hbits'.symm.trans hbits))

/-- A stand-in for SHA-256 that shows the first byte of the device id. -/
def shownDevice (bytes : Bytes) : ByteArr 32 :=
  ⟨0 :: bytes.getD 30 0 :: List.replicate 30 0, by simp⟩

/-- A device creates its tables, draws two rowids, restarts and draws a third. -/
def restarting (device : U8) : List Event :=
  [.created (ByteArr.filled 16 device) fun _ => .ok 5, .allocated fun _ _ => .ok 5,
    .allocated fun _ _ => .ok 5, .restarted, .allocated fun _ _ => .ok 5]

theorem rowids_never_repeat_restarting :
    (run shownDevice (restarting 1)).handed =
      [2 ^ 47 + 5 * 2 ^ 20, 2 ^ 47 + 5 * 2 ^ 20 + 1, 2 ^ 47 + 5 * 2 ^ 20 + 1024] ∧
    ∀ rowid ∈ (run shownDevice (restarting 1)).handed,
      rowid ∉ (run shownDevice (restarting 2)).handed :=
  ⟨by decide +kernel,
    (rowids_never_repeat shownDevice (restarting 1)).2.2.2 (restarting 2) (by decide +kernel)⟩

end Replica

end Homebase.Multilite.Rowid
