import Homebase.Multilite.RowEvents

set_option autoImplicit false

/-!
# Refinement: what a builder knows about its table

`Folds` ties the deltas of a builder to the state before the statement and to the current
one.  It says nothing about tombstones but that they point to a slot: a slot without a row
may take any row, since before-images are only removed and after-images only added.
-/

namespace Homebase.Multilite

open Foundation Homebase.Core TableChangesBuilder List
open OrdMap (get_erase get_insert)

variable {α : Type} {a : α}

theorem orFault_eq_ok_iff {ε : Type} {fault : ε} {x : Option α} :
    orFault fault x = .ok a ↔ x = some a := by
  cases x <;> simp [orFault]

theorem orInvalidTarget_eq_ok_iff {x : Except KeyError α} :
    orInvalidTarget x = .ok a ↔ x = .ok a := by
  cases x <;> simp [orInvalidTarget]

theorem RowRules.rowKey_eq_ok_iff {rules : RowRules} {row : Row} {key : Key} :
    rules.rowKey row = .ok key ↔ ∃ images, rules.keyImages row = .ok images ∧
      (LogicalTarget.row rules.table rules.primaryIndex images).render = .ok key := by
  rw [rowKey, bind_eq_ok_iff]
  exact exists_congr fun images => and_congr_right fun _ => orInvalidTarget_eq_ok_iff

/-- Some before-image has this key. -/
def HadBefore (rules : RowRules) (rows : List RowDelta) (key : Key) : Prop :=
  ∃ delta ∈ rows, ∃ row, delta.before = some row ∧ rules.rowKey row = .ok key

/-- The builder folds what turned one state into the other. -/
structure Folds (rules : RowRules) (S₀ S : TableRows) (b : TableChangesBuilder) : Prop where
  rules_eq : b.rules = rules
  live : ∀ key i, b.current.get key = some i → ∃ delta row, b.rows[i]? = some delta ∧
    delta.after = some row ∧ rules.rowKey row = .ok key
  current : ∀ i delta row, b.rows[i]? = some delta → delta.after = some row →
    ∃ key, rules.rowKey row = .ok key ∧ b.current.get key = some i
  before : ∀ delta ∈ b.rows, ∀ row, delta.before = some row →
    ∃ key, rules.rowKey row = .ok key ∧ S₀.get key = some row
  distinct : ∀ (i j : Nat) (d e : RowDelta) x y key, b.rows[i]? = some d →
    b.rows[j]? = some e → d.before = some x →
    e.before = some y → rules.rowKey x = .ok key → rules.rowKey y = .ok key → i = j
  state_live : ∀ key i delta, b.current.get key = some i → b.rows[i]? = some delta →
    S.get key = delta.after
  state_gone : ∀ key, b.current.get key = none → HadBefore rules b.rows key → S.get key = none
  state_kept : ∀ key, b.current.get key = none → ¬ HadBefore rules b.rows key →
    S.get key = S₀.get key
  introduced : ∀ key i, b.current.get key = some i → ¬ HadBefore rules b.rows key →
    S₀.get key = none
  tombstones : ∀ key i, b.tombstones.get key = some i → i < b.rows.length

theorem Folds.new (rules : RowRules) (S₀ : TableRows) :
    Folds rules S₀ S₀ (TableChangesBuilder.new rules) where
  rules_eq := rfl
  live _ _ h := by cases h
  current _ _ _ h := by cases h
  before _ h := by cases h
  distinct _ _ _ _ _ _ _ h := by cases h
  state_live _ _ _ h := by cases h
  state_gone _ _ h := by
    obtain ⟨delta, hmem, -⟩ := h
    cases hmem
  state_kept _ _ _ := rfl
  introduced _ _ h := by cases h
  tombstones _ _ h := by cases h

section Slots

variable {rules : RowRules} {S₀ S : TableRows} {b : TableChangesBuilder} {i j : Nat}
  {after : Option Row} {delta : RowDelta}

/-- A slot after a row was put into another or the same one. -/
theorem getElem?_setAfter (h : (b.setAfter i after).rows[j]? = some delta) :
    ∃ old, b.rows[j]? = some old ∧ delta.before = old.before ∧
      delta.after = if i = j then after else old.after := by
  rw [setAfter, getElem?_modify, Option.map_eq_map, Option.map_eq_some_iff] at h
  obtain ⟨old, hold, rfl⟩ := h
  refine ⟨old, hold, ?_, ?_⟩ <;> by_cases hij : i = j <;> simp [hij]

theorem mem_setAfter (h : delta ∈ (b.setAfter i after).rows) :
    ∃ old ∈ b.rows, delta.before = old.before := by
  obtain ⟨j, hj⟩ := mem_iff_getElem?.mp h
  obtain ⟨old, hold, hbefore, -⟩ := getElem?_setAfter hj
  exact ⟨old, mem_iff_getElem?.mpr ⟨j, hold⟩, hbefore⟩

/-- Before-images stay when a row is put into a slot. -/
theorem hadBefore_setAfter {key : Key} :
    HadBefore rules (b.setAfter i after).rows key ↔ HadBefore rules b.rows key := by
  constructor
  · rintro ⟨delta, hmem, row, hrow, hkey⟩
    obtain ⟨old, hold, hbefore⟩ := mem_setAfter hmem
    exact ⟨old, hold, row, hbefore.symm.trans hrow, hkey⟩
  · rintro ⟨old, hmem, row, hrow, hkey⟩
    obtain ⟨j, hj⟩ := mem_iff_getElem?.mp hmem
    refine ⟨if i = j then { old with after := after } else old, ?_, row, ?_, hkey⟩
    · refine mem_iff_getElem?.mpr ⟨j, ?_⟩
      rw [setAfter, getElem?_modify, hj]
      by_cases hij : i = j <;> simp [hij]
    · by_cases hij : i = j <;> simp [hij, hrow]

/-- The other slots stay when a row is put into one. -/
theorem getElem?_setAfter_of_ne (hne : j ≠ i) (h : b.rows[j]? = some delta) :
    (b.setAfter i after).rows[j]? = some delta := by
  rw [setAfter, List.getElem?_modify, h]
  simp [Ne.symm hne]

theorem length_setAfter : (b.setAfter i after).rows.length = b.rows.length :=
  length_modify _ _ _

variable {before : Option Row}

/-- A slot after a push. -/
theorem getElem?_push (h : (b.push before).rows[j]? = some delta) :
    b.rows[j]? = some delta ∨ (j = b.rows.length ∧ delta = ⟨before, none⟩) := by
  rw [push, getElem?_append] at h
  split at h
  · exact .inl h
  next hlt =>
    have hj : j - b.rows.length = 0 := by
      by_contra hne
      rw [getElem?_eq_none (by simp; omega)] at h
      cases h
    rw [hj] at h
    cases h
    exact .inr ⟨by omega, rfl⟩

theorem getElem?_push_of_some (h : b.rows[j]? = some delta) :
    (b.push before).rows[j]? = some delta := by
  rw [push, List.getElem?_append_left (List.getElem?_eq_some_iff.mp h).1]
  exact h

/-- A push adds the key of its before-image. -/
theorem hadBefore_push {key : Key} : HadBefore rules (b.push before).rows key ↔
    HadBefore rules b.rows key ∨ ∃ row, before = some row ∧ rules.rowKey row = .ok key := by
  simp [HadBefore, push, or_and_right, exists_or]

theorem lt_of_getElem? (h : b.rows[j]? = some delta) : j < b.rows.length :=
  (List.getElem?_eq_some_iff.mp h).1

end Slots

section Steps

variable {rules : RowRules} {S₀ S : TableRows} {b : TableChangesBuilder} {key : Key}

/-- A key is current exactly as long as there is a row that the builder has touched. -/
theorem Folds.not_current (h : Folds rules S₀ S b) (habsent : S.get key = none) :
    b.current.get key = none := by
  cases hcurrent : b.current.get key with
  | none => rfl
  | some i =>
    obtain ⟨delta, row, hdelta, hafter, -⟩ := h.live key i hcurrent
    have hstate := h.state_live key i delta hcurrent hdelta
    rw [habsent, hafter] at hstate
    cases hstate

variable {row : Row} {i : Nat}

/-- A row is put into a slot without one. -/
theorem Folds.put (h : Folds rules S₀ S b) {delta : RowDelta} (hslot : b.rows[i]? = some delta)
    (hvacant : delta.after = none) (hkey : rules.rowKey row = .ok key)
    (habsent : S.get key = none) :
    Folds rules S₀ (S.insert key row)
      { b.setAfter i (some row) with current := b.current.insert key i } := by
  have hnew := h.not_current habsent
  -- no other key is current at this slot
  have hother : ∀ k, b.current.get k ≠ some i := by
    intro k hk
    obtain ⟨d, x, hd, hafter, -⟩ := h.live k i hk
    cases hslot.symm.trans hd
    rw [hvacant] at hafter
    cases hafter
  have hput : (b.setAfter i (some row)).rows[i]? = some { delta with after := some row } := by
    rw [setAfter, getElem?_modify, hslot]
    simp
  constructor
  · exact h.rules_eq
  · intro k j hk
    change (b.current.insert key i).get k = some j at hk
    rw [get_insert] at hk
    split at hk
    next heq =>
      cases hk
      cases heq
      exact ⟨_, row, hput, rfl, hkey⟩
    · obtain ⟨d, x, hd, hafter, hx⟩ := h.live k j hk
      have hne : j ≠ i := fun heq => hother k (heq ▸ hk)
      exact ⟨d, x, getElem?_setAfter_of_ne hne hd, hafter, hx⟩
  · intro j d x hd hafter
    obtain ⟨old, hold, -, hset⟩ := getElem?_setAfter hd
    change ∃ k, rules.rowKey x = .ok k ∧ (b.current.insert key i).get k = some j
    by_cases hij : i = j
    · rw [if_pos hij, hafter] at hset
      cases hset
      exact ⟨key, hkey, by rw [OrdMap.get_insert_self, hij]⟩
    · rw [if_neg hij, hafter] at hset
      obtain ⟨k, hk, hcurrent⟩ := h.current j old x hold hset.symm
      refine ⟨k, hk, ?_⟩
      have hne : k ≠ key := by
        rintro rfl
        rw [hnew] at hcurrent
        cases hcurrent
      rw [OrdMap.get_insert_of_ne _ _ hne]
      exact hcurrent
  · intro d hd x hx
    obtain ⟨old, hold, hbefore⟩ := mem_setAfter hd
    exact h.before old hold x (hbefore.symm.trans hx)
  · intro j k d e x y key' hd he hx hy hkx hky
    obtain ⟨d', hd', hbefore, -⟩ := getElem?_setAfter hd
    obtain ⟨e', he', hbefore', -⟩ := getElem?_setAfter he
    exact h.distinct j k d' e' x y key' hd' he' (hbefore.symm.trans hx) (hbefore'.symm.trans hy)
      hkx hky
  · intro k j d hk hd
    change (b.current.insert key i).get k = some j at hk
    obtain ⟨old, hold, -, hset⟩ := getElem?_setAfter hd
    rw [get_insert] at hk ⊢
    split at hk
    next heq =>
      cases hk
      rw [if_pos heq, hset, if_pos rfl]
    next heq =>
      have hne : i ≠ j := fun hij => hother k (hij ▸ hk)
      rw [if_neg heq, hset, if_neg hne]
      exact h.state_live k j old hk hold
  · intro k hk hhad
    change (b.current.insert key i).get k = none at hk
    rw [get_insert] at hk ⊢
    split at hk
    · cases hk
    next hne =>
      rw [if_neg hne]
      exact h.state_gone k hk (hadBefore_setAfter.mp hhad)
  · intro k hk hhad
    change (b.current.insert key i).get k = none at hk
    rw [get_insert] at hk ⊢
    split at hk
    · cases hk
    next hne =>
      rw [if_neg hne]
      exact h.state_kept k hk fun hb => hhad (hadBefore_setAfter.mpr hb)
  · intro k j hk hhad
    change (b.current.insert key i).get k = some j at hk
    have hhad' : ¬ HadBefore rules b.rows k := fun hb => hhad (hadBefore_setAfter.mpr hb)
    rw [get_insert] at hk
    split at hk
    next heq =>
      cases heq
      exact (h.state_kept key hnew hhad').symm.trans habsent
    · exact h.introduced k j hk hhad'
  · intro k j hk
    change j < (b.setAfter i (some row)).rows.length
    rw [length_setAfter]
    exact h.tombstones k j hk

/-- A slot without images changes nothing. -/
theorem Folds.push_none (h : Folds rules S₀ S b) : Folds rules S₀ S (b.push none) := by
  have hhad : ∀ key, HadBefore rules (b.push none).rows key ↔ HadBefore rules b.rows key :=
    fun key => hadBefore_push.trans (by simp)
  constructor
  · exact h.rules_eq
  · intro k j hk
    obtain ⟨d, x, hd, hafter, hx⟩ := h.live k j hk
    exact ⟨d, x, getElem?_push_of_some hd, hafter, hx⟩
  · intro j d x hd hafter
    rcases getElem?_push hd with hd | ⟨-, rfl⟩
    · exact h.current j d x hd hafter
    · cases hafter
  · intro d hd x hx
    rcases mem_append.mp hd with hd | hd
    · exact h.before d hd x hx
    · cases mem_singleton.mp hd
      cases hx
  · intro j k d e x y key hd he hx hy hkx hky
    rcases getElem?_push hd with hd | ⟨-, rfl⟩
    · rcases getElem?_push he with he | ⟨-, rfl⟩
      · exact h.distinct j k d e x y key hd he hx hy hkx hky
      · cases hy
    · cases hx
  · intro k j d hk hd
    obtain ⟨d', x, hd', -⟩ := h.live k j hk
    cases (getElem?_push_of_some hd').symm.trans hd
    exact h.state_live k j d hk hd'
  · exact fun k hk hb => h.state_gone k hk ((hhad k).mp hb)
  · exact fun k hk hb => h.state_kept k hk fun hold => hb ((hhad k).mpr hold)
  · exact fun k j hk hb => h.introduced k j hk fun hold => hb ((hhad k).mpr hold)
  · intro k j hk
    have hlt := h.tombstones k j hk
    rw [push, length_append]
    exact Nat.lt_add_right _ hlt

/-- A row that the statement touches first leaves its before-image. -/
theorem Folds.push_row (h : Folds rules S₀ S b) (hkey : rules.rowKey row = .ok key)
    (hrow : S.get key = some row) (hnew : b.current.get key = none) :
    Folds rules S₀ (S.erase key) (b.push (some row)) := by
  have hfresh : ¬ HadBefore rules b.rows key := by
    intro hhad
    rw [h.state_gone key hnew hhad] at hrow
    cases hrow
  have hhad : ∀ k, HadBefore rules (b.push (some row)).rows k ↔ HadBefore rules b.rows k ∨ k = key :=
    fun k => hadBefore_push.trans (by simp [hkey, eq_comm])
  -- the new before-image has a key of its own
  have hother : ∀ {j : Nat} {d : RowDelta} {x : Row} {k : Key}, b.rows[j]? = some d →
      d.before = some x → rules.rowKey x = .ok k → k ≠ key := by
    rintro j d x k hd hx hk rfl
    exact hfresh ⟨d, mem_iff_getElem?.mpr ⟨j, hd⟩, x, hx, hk⟩
  constructor
  · exact h.rules_eq
  · intro k j hk
    obtain ⟨d, x, hd, hafter, hx⟩ := h.live k j hk
    exact ⟨d, x, getElem?_push_of_some hd, hafter, hx⟩
  · intro j d x hd hafter
    rcases getElem?_push hd with hd | ⟨-, rfl⟩
    · exact h.current j d x hd hafter
    · cases hafter
  · intro d hd x hx
    rcases mem_append.mp hd with hd | hd
    · exact h.before d hd x hx
    · cases mem_singleton.mp hd
      cases hx
      exact ⟨key, hkey, (h.state_kept key hnew hfresh).symm.trans hrow⟩
  · intro j k d e x y k' hd he hx hy hkx hky
    rcases getElem?_push hd with hd | ⟨rfl, rfl⟩
    · rcases getElem?_push he with he | ⟨rfl, rfl⟩
      · exact h.distinct j k d e x y k' hd he hx hy hkx hky
      · cases hy
        exact absurd (Except.ok.inj (hky.symm.trans hkey)) (hother hd hx hkx)
    · rcases getElem?_push he with he | ⟨rfl, rfl⟩
      · cases hx
        exact absurd (Except.ok.inj (hkx.symm.trans hkey)) (hother he hy hky)
      · rfl
  · intro k j d hk hd
    obtain ⟨d', x, hd', -⟩ := h.live k j hk
    cases (getElem?_push_of_some hd').symm.trans hd
    have hne : k ≠ key := by
      rintro rfl
      have hk : b.current.get k = some j := hk
      rw [hnew] at hk
      cases hk
    rw [get_erase, if_neg hne]
    exact h.state_live k j d hk hd'
  · intro k hk hb
    rw [get_erase]
    split
    · rfl
    next hne => exact h.state_gone k hk (((hhad k).mp hb).resolve_right hne)
  · intro k hk hb
    obtain ⟨hold, hne⟩ := not_or.mp ((hhad k).not.mp hb)
    rw [get_erase, if_neg hne]
    exact h.state_kept k hk hold
  · exact fun k j hk hb => h.introduced k j hk (not_or.mp ((hhad k).not.mp hb)).1
  · intro k j hk
    have hlt := h.tombstones k j hk
    rw [push, length_append]
    exact Nat.lt_add_right _ hlt

/-- A row that the statement has touched before leaves its slot. -/
theorem Folds.vacate (h : Folds rules S₀ S b) (hcurrent : b.current.get key = some i) :
    Folds rules S₀ (S.erase key) ({ b with current := b.current.erase key }.setAfter i none) := by
  obtain ⟨delta, row, hslot, hrow, hkey⟩ := h.live key i hcurrent
  -- a slot is current for one key only
  have honly : ∀ k, b.current.get k = some i → k = key := by
    intro k hk
    obtain ⟨d, x, hd, hafter, hx⟩ := h.live k i hk
    cases hslot.symm.trans hd
    cases hrow.symm.trans hafter
    exact Except.ok.inj (hx.symm.trans hkey)
  have herase : ∀ {k : Key} {j : Nat}, (b.current.erase key).get k = some j →
      k ≠ key ∧ b.current.get k = some j := by
    intro k j hk
    rw [get_erase] at hk
    split at hk
    · cases hk
    next hne => exact ⟨hne, hk⟩
  constructor
  · exact h.rules_eq
  · intro k j hk
    obtain ⟨hne, hk⟩ := herase hk
    obtain ⟨d, x, hd, hafter, hx⟩ := h.live k j hk
    have hji : j ≠ i := fun heq => hne (honly k (heq ▸ hk))
    exact ⟨d, x, getElem?_setAfter_of_ne hji hd, hafter, hx⟩
  · intro j d x hd hafter
    obtain ⟨old, hold, -, hset⟩ := getElem?_setAfter hd
    by_cases hij : i = j
    · rw [if_pos hij, hafter] at hset
      cases hset
    · rw [if_neg hij, hafter] at hset
      obtain ⟨k, hk, hkcurrent⟩ := h.current j old x hold hset.symm
      refine ⟨k, hk, ?_⟩
      have hne : k ≠ key := by
        rintro rfl
        exact hij (Option.some.inj (hcurrent.symm.trans hkcurrent))
      change (b.current.erase key).get k = some j
      rw [get_erase, if_neg hne]
      exact hkcurrent
  · intro d hd x hx
    obtain ⟨old, hold, hbefore⟩ := mem_setAfter hd
    exact h.before old hold x (hbefore.symm.trans hx)
  · intro j k d e x y k' hd he hx hy hkx hky
    obtain ⟨d', hd', hbefore, -⟩ := getElem?_setAfter hd
    obtain ⟨e', he', hbefore', -⟩ := getElem?_setAfter he
    exact h.distinct j k d' e' x y k' hd' he' (hbefore.symm.trans hx) (hbefore'.symm.trans hy) hkx hky
  · intro k j d hk hd
    obtain ⟨hne, hk⟩ := herase hk
    obtain ⟨old, hold, -, hset⟩ := getElem?_setAfter hd
    have hij : i ≠ j := fun heq => hne (honly k (heq ▸ hk))
    rw [get_erase, if_neg hne, hset, if_neg hij]
    exact h.state_live k j old hk hold
  · intro k hk hb
    change (b.current.erase key).get k = none at hk
    rw [get_erase] at hk ⊢
    split
    · rfl
    next hne =>
      rw [if_neg hne] at hk
      exact h.state_gone k hk (hadBefore_setAfter.mp hb)
  · intro k hk hb
    change (b.current.erase key).get k = none at hk
    rw [get_erase] at hk ⊢
    have hb' : ¬ HadBefore rules b.rows k := fun hold => hb (hadBefore_setAfter.mpr hold)
    split
    next heq =>
      cases heq
      exact (h.introduced key i hcurrent hb').symm
    next hne =>
      rw [if_neg hne] at hk
      exact h.state_kept k hk hb'
  · intro k j hk hb
    exact h.introduced k j (herase hk).2 fun hold => hb (hadBefore_setAfter.mpr hold)
  · intro k j hk
    rw [length_setAfter]
    exact h.tombstones k j hk

theorem setAfter_setAfter (b : TableChangesBuilder) (i : Nat) (x y : Option Row) :
    (b.setAfter i x).setAfter i y = b.setAfter i y := by
  rw [setAfter, setAfter, setAfter]
  congr 1
  refine ext_getElem? fun j => ?_
  simp only [getElem?_modify, Option.map_eq_map, Option.map_map]
  congr 1
  funext delta
  by_cases hij : i = j <;> simp [hij]

theorem setAfter_push (b : TableChangesBuilder) (before : Option Row) :
    (b.push before).setAfter b.rows.length none = b.push before := by
  rw [setAfter, push]
  congr 1
  refine ext_getElem? fun j => ?_
  rw [getElem?_modify]
  split
  next hj =>
    rw [← hj, getElem?_append_right (le_refl _), Nat.sub_self]
    rfl
  · simp

/-- `take`: the slot of a row that goes, and the table without it. -/
theorem Folds.take (h : Folds rules S₀ S b) (hkey : rules.rowKey row = .ok key)
    (hrow : S.get key = some row) (contradicts : FoldFault) :
    ∃ i b' delta, b.take key row contradicts = .ok (i, b') ∧ b'.rows[i]? = some delta ∧
      b'.tombstones = b.tombstones ∧ Folds rules S₀ (S.erase key) (b'.setAfter i none) := by
  cases hcurrent : b.current.get key with
  | some i =>
    obtain ⟨delta, x, hslot, hafter, -⟩ := h.live key i hcurrent
    have hsame : delta.after = some row := (h.state_live key i delta hcurrent hslot).symm.trans hrow
    refine ⟨i, { b with current := b.current.erase key }, delta, ?_, hslot, rfl, h.vacate hcurrent⟩
    rw [TableChangesBuilder.take, hcurrent]
    change (b.slot i >>= _) = _
    rw [slot, hslot]
    change (if delta.after ≠ some row then _ else _) = _
    rw [if_neg (not_not.mpr hsame)]
  | none =>
    refine ⟨b.rows.length, b.push (some row), ⟨some row, none⟩, ?_, ?_, rfl, ?_⟩
    · rw [TableChangesBuilder.take, hcurrent]
    · rw [push, getElem?_append_right (le_refl _), Nat.sub_self]
      rfl
    · rw [setAfter_push]
      exact h.push_row hkey hrow hcurrent

/-- Tombstones may be anything that points to a slot. -/
theorem Folds.with_tombstones (h : Folds rules S₀ S b) (tombstones : OrdMap Key Nat)
    (htombstones : ∀ key i, tombstones.get key = some i → i < b.rows.length) :
    Folds rules S₀ S { b with tombstones := tombstones } :=
  ⟨h.rules_eq, h.live, h.current, h.before, h.distinct, h.state_live, h.state_gone, h.state_kept,
    h.introduced, htombstones⟩

theorem Folds.erase_tombstone (h : Folds rules S₀ S b) (key : Key) :
    ∀ k i, (b.tombstones.erase key).get k = some i → i < b.rows.length := by
  intro k i hk
  rw [get_erase] at hk
  split at hk
  · cases hk
  · exact h.tombstones k i hk

theorem Folds.insert_tombstone (h : Folds rules S₀ S b) (key : Key) (hi : i < b.rows.length) :
    ∀ k j, (b.tombstones.insert key i).get k = some j → j < b.rows.length := by
  intro k j hk
  rw [get_insert] at hk
  split at hk
  · cases hk
    exact hi
  · exact h.tombstones k j hk

/-! ### Events -/

theorem Folds.insert (h : Folds rules S₀ S b) (hkey : rules.rowKey row = .ok key)
    (habsent : S.get key = none) :
    ∃ b', b.insert key row = .ok b' ∧ Folds rules S₀ (S.insert key row) b' := by
  have hnew := h.not_current habsent
  have herased := h.with_tombstones _ (h.erase_tombstone key)
  have hvacated : ∃ reused, b.vacated key = .ok reused ∧
      ∀ i, reused = some i → ∃ delta, b.rows[i]? = some delta ∧ delta.after = none := by
    rw [vacated]
    cases htombstone : b.tombstones.get key with
    | none => exact ⟨none, rfl, by simp⟩
    | some i =>
      obtain ⟨delta, hdelta⟩ : ∃ delta, b.rows[i]? = some delta :=
        ⟨_, getElem?_eq_getElem (h.tombstones key i htombstone)⟩
      refine ⟨if delta.after = none then some i else none, ?_, ?_⟩
      · change (b.slot i >>= _) = _
        rw [slot, hdelta]
        rfl
      · intro j hj
        split at hj
        next hvacant =>
          cases hj
          exact ⟨delta, hdelta, hvacant⟩
        · cases hj
  obtain ⟨reused, hreused, hslot⟩ := hvacated
  rw [TableChangesBuilder.insert, if_neg (not_not.mpr hnew), hreused, ok_bind]
  cases reused with
  | some i =>
    obtain ⟨delta, hdelta, hvacant⟩ := hslot i rfl
    exact ⟨_, rfl, herased.put hdelta hvacant hkey habsent⟩
  | none =>
    have hpushed : (b.rows ++ [(⟨none, none⟩ : RowDelta)])[b.rows.length]? = some ⟨none, none⟩ := by
      rw [getElem?_append_right (le_refl _), Nat.sub_self]
      rfl
    exact ⟨_, rfl, herased.push_none.put hpushed rfl hkey habsent⟩

theorem Folds.delete (h : Folds rules S₀ S b) (hkey : rules.rowKey row = .ok key)
    (hrow : S.get key = some row) :
    ∃ b', b.delete key row = .ok b' ∧ Folds rules S₀ (S.erase key) b' := by
  obtain ⟨i, b₁, delta, htake, hslot, -, hfolds⟩ := h.take hkey hrow .deleteContradicts
  have hi : i < (b₁.setAfter i none).rows.length := by
    rw [length_setAfter]
    exact lt_of_getElem? hslot
  refine ⟨_, ?_, hfolds.with_tombstones _ (hfolds.insert_tombstone key hi)⟩
  rw [TableChangesBuilder.delete, htake, ok_bind]

theorem Folds.update (h : Folds rules S₀ S b) {beforeKey afterKey : Key} {before after : Row}
    (hbefore : rules.rowKey before = .ok beforeKey) (hafter : rules.rowKey after = .ok afterKey)
    (hrow : S.get beforeKey = some before) (habsent : (S.erase beforeKey).get afterKey = none) :
    ∃ b', b.update beforeKey before afterKey after = .ok b' ∧
      Folds rules S₀ ((S.erase beforeKey).insert afterKey after) b' := by
  obtain ⟨i, b₁, delta, htake, hslot, -, hfolds⟩ := h.take hbefore hrow .updateContradicts
  have hslot' : (b₁.setAfter i none).rows[i]? = some { delta with after := none } := by
    rw [setAfter, getElem?_modify, hslot]
    simp
  have hi : i < (b₁.setAfter i none).rows.length := lt_of_getElem? hslot'
  have hput := hfolds.put hslot' rfl hafter habsent
  rw [setAfter_setAfter] at hput
  have hnew : b₁.current.get afterKey = none := hfolds.not_current habsent
  have hi' : i < (b₁.setAfter i (some after)).rows.length := by
    rw [length_setAfter]
    exact lt_of_getElem? hslot
  refine ⟨_, ?_, hput.with_tombstones (if beforeKey ≠ afterKey then
    b₁.tombstones.insert beforeKey i else b₁.tombstones.erase beforeKey) ?_⟩
  · rw [TableChangesBuilder.update, htake, ok_bind]
    dsimp only
    rw [hnew, if_neg (by simp)]
    rfl
  · split
    · exact hput.insert_tombstone beforeKey hi'
    · exact hput.erase_tombstone beforeKey

/-- A valid event is folded. -/
theorem Folds.event (h : Folds rules S₀ S b) {e : RowEvent} {S' : TableRows}
    (heffect : e.effect rules S = some S') : ∃ b', b.event e = .ok b' ∧ Folds rules S₀ S' b' := by
  cases e with
  | insert row =>
    rw [RowEvent.effect] at heffect
    split at heffect
    · cases heffect
    next key hkey =>
      split at heffect
      next habsent =>
        cases heffect
        obtain ⟨b', hb', hfolds⟩ := h.insert hkey habsent
        refine ⟨b', ?_, hfolds⟩
        rw [TableChangesBuilder.event, h.rules_eq, hkey]
        exact hb'
      · cases heffect
  | delete row =>
    rw [RowEvent.effect] at heffect
    split at heffect
    · cases heffect
    next key hkey =>
      split at heffect
      next hrow =>
        cases heffect
        obtain ⟨b', hb', hfolds⟩ := h.delete hkey hrow
        refine ⟨b', ?_, hfolds⟩
        rw [TableChangesBuilder.event, h.rules_eq, hkey]
        exact hb'
      · cases heffect
  | update before after =>
    rw [RowEvent.effect] at heffect
    split at heffect
    next beforeKey afterKey hbefore hafter =>
      split at heffect
      next hvalid =>
        cases heffect
        obtain ⟨b', hb', hfolds⟩ := h.update hbefore hafter hvalid.1 hvalid.2
        refine ⟨b', ?_, hfolds⟩
        rw [TableChangesBuilder.event, h.rules_eq, hbefore, hafter]
        exact hb'
      · cases heffect
    · cases heffect

/-- A valid stream is folded. -/
theorem Folds.run (h : Folds rules S₀ S b) {events : List RowEvent} {Sₙ : TableRows}
    (heffect : events.foldlM (RowEvent.effect rules) S = some Sₙ) :
    ∃ b', events.foldlM TableChangesBuilder.event b = .ok b' ∧ Folds rules S₀ Sₙ b' := by
  induction events generalizing S b with
  | nil =>
    cases heffect
    exact ⟨b, rfl, h⟩
  | cons e events ih =>
    rw [foldlM_cons] at heffect
    obtain ⟨S₁, heffect₁, heffect⟩ := Option.bind_eq_some_iff.mp heffect
    obtain ⟨b₁, hb₁, hfolds⟩ := h.event heffect₁
    obtain ⟨b', hb', hfolds'⟩ := ih hfolds heffect
    refine ⟨b', ?_, hfolds'⟩
    rw [foldlM_cons, hb₁]
    exact hb'

end Steps

/-! ## Net effects -/

/-- A table without some rows. -/
def removeRows (rules : RowRules) (S : TableRows) (rows : List Row) : TableRows :=
  rows.foldl (fun S row => match rules.rowKey row with
    | .ok key => S.erase key
    | .error _ => S) S

/-- A table with some more rows. -/
def addRows (rules : RowRules) (S : TableRows) (rows : List Row) : TableRows :=
  rows.foldl (fun S row => match rules.rowKey row with
    | .ok key => S.insert key row
    | .error _ => S) S

/-- The deltas are the net effect of what turned one state into the other. -/
structure NetEffect (rules : RowRules) (S₀ Sₙ : TableRows) (deltas : List RowDelta) : Prop where
  before_rows : ∀ row ∈ deltas.filterMap RowDelta.before, ∃ key, rules.rowKey row = .ok key ∧
    S₀.get key = some row
  before_distinct : ((deltas.filterMap RowDelta.before).map rules.rowKey).Nodup
  after_keys : ∀ row ∈ deltas.filterMap RowDelta.after, ∃ key, rules.rowKey row = .ok key ∧
    (removeRows rules S₀ (deltas.filterMap RowDelta.before)).get key = none
  after_distinct : ((deltas.filterMap RowDelta.after).map rules.rowKey).Nodup
  result : addRows rules (removeRows rules S₀ (deltas.filterMap RowDelta.before))
    (deltas.filterMap RowDelta.after) = Sₙ

section Net

variable {rules : RowRules} {S₀ S : TableRows} {b : TableChangesBuilder}

theorem get_removeRows (rules : RowRules) (S : TableRows) (rows : List Row) (key : Key) :
    (removeRows rules S rows).get key =
      if .ok key ∈ rows.map rules.rowKey then none else S.get key := by
  induction rows generalizing S with
  | nil => simp [removeRows]
  | cons row rows ih =>
    rw [removeRows, foldl_cons, ← removeRows, ih]
    simp only [map_cons, mem_cons]
    cases hrow : rules.rowKey row with
    | error fault => simp
    | ok own =>
      by_cases hkey : key = own
      · simp [hkey, get_erase]
      · simp [hkey, get_erase]

variable {key : Key}

theorem get_addRows_of_not_mem (rules : RowRules) (S : TableRows) (rows : List Row)
    (h : .ok key ∉ rows.map rules.rowKey) : (addRows rules S rows).get key = S.get key := by
  induction rows generalizing S with
  | nil => rfl
  | cons row rows ih =>
    rw [map_cons, mem_cons, not_or] at h
    rw [addRows, foldl_cons, ← addRows, ih _ h.2]
    cases hrow : rules.rowKey row with
    | error fault => rfl
    | ok own =>
      rw [hrow] at h
      exact OrdMap.get_insert_of_ne _ _ fun heq => h.1 (congrArg Except.ok heq)

variable {row : Row}

theorem get_addRows_of_mem (rules : RowRules) (S : TableRows) {rows : List Row}
    (hdistinct : (rows.map rules.rowKey).Nodup) (hmem : row ∈ rows)
    (hkey : rules.rowKey row = .ok key) : (addRows rules S rows).get key = some row := by
  induction rows generalizing S with
  | nil => cases hmem
  | cons first rows ih =>
    rw [map_cons, nodup_cons] at hdistinct
    rw [addRows, foldl_cons, ← addRows]
    rcases mem_cons.mp hmem with rfl | hmem
    · rw [hkey] at hdistinct ⊢
      rw [get_addRows_of_not_mem _ _ _ hdistinct.1, OrdMap.get_insert_self]
    · exact ih _ hdistinct.2 hmem

/-- Images that differ at every two slots have different keys. -/
theorem nodup_keys (image : RowDelta → Option Row) {rows : List RowDelta}
    (hkeys : ∀ delta ∈ rows, ∀ row, image delta = some row → ∃ key, rules.rowKey row = .ok key)
    (hdistinct : ∀ (i j : Nat) (d e : RowDelta) x y key, rows[i]? = some d → rows[j]? = some e →
      image d = some x → image e = some y → rules.rowKey x = .ok key → rules.rowKey y = .ok key →
      i = j) (keep : RowDelta → Bool) :
    (((rows.filter keep).filterMap image).map rules.rowKey).Nodup := by
  have hpairwise : rows.Pairwise fun d e => ∀ x, image d = some x → ∀ y, image e = some y →
      rules.rowKey x ≠ rules.rowKey y := by
    rw [pairwise_iff_getElem]
    intro i j hi hj hij x hx y hy hsame
    obtain ⟨key, hkey⟩ := hkeys _ (getElem_mem hi) x hx
    have heq := hdistinct i j _ _ x y key (getElem?_eq_getElem hi)
      (getElem?_eq_getElem hj) hx hy hkey (hsame ▸ hkey)
    omega
  rw [List.Nodup, pairwise_map, pairwise_filterMap]
  exact (hpairwise.filter keep).imp fun h x hx y hy => h x hx y hy

variable {delta : RowDelta}

theorem mem_retained : delta ∈ b.retained ↔ delta ∈ b.rows ∧ delta.before ≠ delta.after := by
  rw [retained, mem_filter, decide_eq_true_iff]

/-- The keys of the retained before-images. -/
theorem mem_before_keys : Except.ok key ∈ (b.retained.filterMap RowDelta.before).map rules.rowKey ↔
      ∃ delta ∈ b.rows, delta.before ≠ delta.after ∧ ∃ row, delta.before = some row ∧
        rules.rowKey row = .ok key := by
  simp only [mem_map, mem_filterMap, mem_retained]
  constructor
  · rintro ⟨row, ⟨delta, ⟨hmem, hne⟩, hrow⟩, hkey⟩
    exact ⟨delta, hmem, hne, row, hrow, hkey⟩
  · rintro ⟨delta, hmem, hne, row, hrow, hkey⟩
    exact ⟨row, ⟨delta, ⟨hmem, hne⟩, hrow⟩, hkey⟩

/-- A retained after-image is live in its slot. -/
theorem Folds.live_of_after (h : Folds rules S₀ S b)
    (hrow : row ∈ b.retained.filterMap RowDelta.after) (hkey : rules.rowKey row = .ok key) :
    ∃ i delta, b.rows[i]? = some delta ∧ delta.before ≠ delta.after ∧ delta.after = some row ∧
      b.current.get key = some i := by
  obtain ⟨delta, hdelta, hafter⟩ := mem_filterMap.mp hrow
  obtain ⟨hmem, hne⟩ := mem_retained.mp hdelta
  obtain ⟨i, hi⟩ := mem_iff_getElem?.mp hmem
  obtain ⟨k, hk, hcurrent⟩ := h.current i delta row hi hafter
  cases hkey.symm.trans hk
  exact ⟨i, delta, hi, hne, hafter, hcurrent⟩

/-- A delta whose images are equal lives at the key of both. -/
theorem Folds.current_of_same (h : Folds rules S₀ S b) (hmem : delta ∈ b.rows)
    (hrow : delta.before = some row) (hkey : rules.rowKey row = .ok key)
    (hsame : delta.before = delta.after) :
    ∃ i, b.rows[i]? = some delta ∧ b.current.get key = some i := by
  obtain ⟨i, hi⟩ := mem_iff_getElem?.mp hmem
  obtain ⟨k, hk, hcurrent⟩ := h.current i delta row hi (hsame.symm.trans hrow)
  cases hkey.symm.trans hk
  exact ⟨i, hi, hcurrent⟩

/-- A live row whose delta is dropped is the row of the start. -/
theorem Folds.dropped (h : Folds rules S₀ S b) {i : Nat} (hcurrent : b.current.get key = some i)
    (hdelta : b.rows[i]? = some delta) (hsame : delta.before = delta.after) :
    S.get key = S₀.get key ∧
      Except.ok key ∉ (b.retained.filterMap RowDelta.before).map rules.rowKey := by
  obtain ⟨d, row, hd, hrow, hkey⟩ := h.live key i hcurrent
  cases hdelta.symm.trans hd
  have hbefore : delta.before = some row := hsame.trans hrow
  obtain ⟨k, hk, hstart⟩ := h.before delta (mem_iff_getElem?.mpr ⟨i, hdelta⟩) row hbefore
  cases hkey.symm.trans hk
  refine ⟨((h.state_live key i delta hcurrent hdelta).trans hrow).trans hstart.symm, ?_⟩
  rw [mem_before_keys]
  rintro ⟨e, he, hne, y, hy, hky⟩
  obtain ⟨j, hj⟩ := mem_iff_getElem?.mp he
  have hij := h.distinct i j delta e row y key hdelta hj hbefore hy hkey hky
  subst hij
  cases hdelta.symm.trans hj
  exact hne hsame

/-- What is not live is what removing the before-images leaves. -/
theorem Folds.get_of_not_current (h : Folds rules S₀ S b) (hcurrent : b.current.get key = none) :
    (removeRows rules S₀ (b.retained.filterMap RowDelta.before)).get key = S.get key := by
  rw [get_removeRows]
  by_cases hhad : HadBefore rules b.rows key
  · rw [h.state_gone key hcurrent hhad, if_pos]
    obtain ⟨delta, hmem, row, hrow, hkey⟩ := hhad
    refine mem_before_keys.mpr ⟨delta, hmem, fun hsame => ?_, row, hrow, hkey⟩
    obtain ⟨i, -, hcurrent'⟩ := h.current_of_same hmem hrow hkey hsame
    rw [hcurrent] at hcurrent'
    cases hcurrent'
  · rw [h.state_kept key hcurrent hhad, if_neg]
    rw [mem_before_keys]
    rintro ⟨delta, hmem, -, row, hrow, hkey⟩
    exact hhad ⟨delta, hmem, row, hrow, hkey⟩

/-- The key of a retained after-image is free once the before-images are removed. -/
theorem Folds.free_of_after (h : Folds rules S₀ S b)
    (hrow : row ∈ b.retained.filterMap RowDelta.after) (hkey : rules.rowKey row = .ok key) :
    (removeRows rules S₀ (b.retained.filterMap RowDelta.before)).get key = none := by
  obtain ⟨i, delta, hdelta, hne, -, hcurrent⟩ := h.live_of_after hrow hkey
  rw [get_removeRows]
  split
  · rfl
  next hnot =>
    refine h.introduced key i hcurrent ?_
    rintro ⟨e, he, y, hy, hky⟩
    refine hnot (mem_before_keys.mpr ⟨e, he, fun hsame => ?_, y, hy, hky⟩)
    obtain ⟨j, hj, hcurrent'⟩ := h.current_of_same he hy hky hsame
    cases hcurrent.symm.trans hcurrent'
    cases hdelta.symm.trans hj
    exact hne hsame

/-- The retained deltas of a builder are a net effect. -/
theorem Folds.netEffect (h : Folds rules S₀ S b) : NetEffect rules S₀ S b.retained := by
  have hafterSlot : ∀ (i j : Nat) (d e : RowDelta) x y key, b.rows[i]? = some d →
      b.rows[j]? = some e → d.after = some x → e.after = some y → rules.rowKey x = .ok key →
      rules.rowKey y = .ok key → i = j := by
    intro i j d e x y key hd he hx hy hkx hky
    obtain ⟨k, hk, hi⟩ := h.current i d x hd hx
    obtain ⟨k', hk', hj⟩ := h.current j e y he hy
    cases hkx.symm.trans hk
    cases hky.symm.trans hk'
    exact Option.some.inj (hi.symm.trans hj)
  have hafterKey : ∀ delta ∈ b.rows, ∀ row, delta.after = some row →
      ∃ key, rules.rowKey row = .ok key := by
    intro delta hdelta row hrow
    obtain ⟨i, hi⟩ := mem_iff_getElem?.mp hdelta
    obtain ⟨key, hkey, -⟩ := h.current i delta row hi hrow
    exact ⟨key, hkey⟩
  have hbeforeKey : ∀ delta ∈ b.rows, ∀ row, delta.before = some row →
      ∃ key, rules.rowKey row = .ok key := by
    intro delta hdelta row hrow
    obtain ⟨key, hkey, -⟩ := h.before delta hdelta row hrow
    exact ⟨key, hkey⟩
  have hdistinct := nodup_keys RowDelta.after hafterKey hafterSlot
    fun delta => decide (delta.before ≠ delta.after)
  refine ⟨?_, nodup_keys RowDelta.before hbeforeKey h.distinct _, ?_, hdistinct, ?_⟩
  · intro row hrow
    obtain ⟨delta, hdelta, hbefore⟩ := mem_filterMap.mp hrow
    exact h.before delta (mem_retained.mp hdelta).1 row hbefore
  · intro row hrow
    obtain ⟨delta, hdelta, hafter⟩ := mem_filterMap.mp hrow
    obtain ⟨key, hkey⟩ := hafterKey delta (mem_retained.mp hdelta).1 row hafter
    exact ⟨key, hkey, h.free_of_after hrow hkey⟩
  · refine OrdMap.ext_get fun key => ?_
    cases hcurrent : b.current.get key with
    | none =>
      rw [get_addRows_of_not_mem, h.get_of_not_current hcurrent]
      intro hmem
      obtain ⟨row, hrow, hkey⟩ := mem_map.mp hmem
      obtain ⟨i, delta, -, -, -, hcurrent'⟩ := h.live_of_after hrow hkey
      rw [hcurrent] at hcurrent'
      cases hcurrent'
    | some i =>
      obtain ⟨delta, row, hdelta, hrow, hkey⟩ := h.live key i hcurrent
      by_cases hsame : delta.before = delta.after
      · obtain ⟨hstart, hnot⟩ := h.dropped hcurrent hdelta hsame
        rw [get_addRows_of_not_mem, get_removeRows, if_neg hnot, hstart]
        intro hmem
        obtain ⟨other, hother, hkey'⟩ := mem_map.mp hmem
        obtain ⟨j, e, he, hne, -, hcurrent'⟩ := h.live_of_after hother hkey'
        cases hcurrent.symm.trans hcurrent'
        cases hdelta.symm.trans he
        exact hne hsame
      · rw [h.state_live key i delta hcurrent hdelta, hrow]
        refine get_addRows_of_mem rules _ hdistinct (mem_filterMap.mpr ⟨delta, ?_, hrow⟩) hkey
        exact mem_retained.mpr ⟨mem_iff_getElem?.mpr ⟨i, hdelta⟩, hsame⟩

end Net

end Homebase.Multilite
