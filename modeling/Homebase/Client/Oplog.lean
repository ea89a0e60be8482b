import Homebase.Client.Meta

set_option autoImplicit false

/-!
# Client: the oplog of one space under its four transitions

`commit`, `trim_oplog`, `rollback` and `rollback_if_unchanged` move three cursors over one
log.  `OplogStep` says what any of them can do; the window invariant (`Windowed`) and all
that follows about whole runs rests on that alone.
-/

namespace Homebase.Client

open Foundation Homebase.Core

/-! ## Calls -/

/-- A call that changes the oplog of a space, with any arguments. -/
inductive OplogCall where
  | commit (reserved : ReservedCommit) (entries : List SealedEntry)
  | trimOplog (through : DeviceSeq) (checksum : DeviceChecksum)
  | rollback (target : DeviceSeq)
  | rollbackIfUnchanged (target : DeviceSeq) (expected : OplogCursors)

namespace SpaceRecords

/-- What a call returns. -/
def oplogCall (r : SpaceRecords) : OplogCall → Except StoreFault SpaceRecords
  | .commit reserved entries => (r.commit reserved entries).map Prod.snd
  | .trimOplog through checksum => r.trimOplog through checksum
  | .rollback target => r.rollback target
  | .rollbackIfUnchanged target expected => r.rollbackIfUnchanged target expected

/-- What a call leaves behind. -/
def afterCall (r : SpaceRecords) (call : OplogCall) : SpaceRecords :=
  match r.oplogCall call with
  | .ok r' => r'
  | .error _ => r

/-- What a sequence of calls leaves behind. -/
def afterCalls (r : SpaceRecords) (calls : List OplogCall) : SpaceRecords := calls.foldl afterCall r

@[simp] theorem afterCalls_nil (r : SpaceRecords) : r.afterCalls [] = r := rfl

@[simp] theorem afterCalls_cons (r : SpaceRecords) (call : OplogCall) (calls : List OplogCall) :
    r.afterCalls (call :: calls) = (r.afterCall call).afterCalls calls := rfl

theorem afterCalls_append (r : SpaceRecords) (xs ys : List OplogCall) :
    r.afterCalls (xs ++ ys) = (r.afterCalls xs).afterCalls ys := List.foldl_append

end SpaceRecords

/-! ## What a call can do -/

/-- The part of a space that the oplog calls read and write, as they read it. -/
structure SameLog (r r' : SpaceRecords) : Prop where
  cursors : r'.oplogCursors = r.oplogCursors
  oplog : r'.oplog = r.oplog
  ver : r'.currentVer = r.currentVer
  confirmed : r'.confirmed = r.confirmed

theorem SameLog.refl (r : SpaceRecords) : SameLog r r := ⟨rfl, rfl, rfl, rfl⟩

theorem SameLog.trans {a b c : SpaceRecords} (hab : SameLog a b) (hbc : SameLog b c) : SameLog a c :=
  ⟨hbc.cursors.trans hab.cursors, hbc.oplog.trans hab.oplog, hbc.ver.trans hab.ver,
    hbc.confirmed.trans hab.confirmed⟩

/-- How far `trim_oplog` moves the cursors. -/
def advanced (r : SpaceRecords) (through : DeviceSeq) : DeviceSeq :=
  min (U64.saturatingAdd through 1) r.oplogCursors.tail

/-- What any of the calls can do. -/
inductive OplogStep (r r' : SpaceRecords) : Prop
  | unchanged (hsame : r' = r)
  | committed (entries : List SealedEntry) (asserts : List RangeAssert) (mode : SubmitMode)
      (tail : DeviceSeq) (htail : tail.val = r.oplogCursors.tail.val + 1)
      (hlog : r'.oplog = r.oplog.insert r.oplogCursors.tail (.commit entries asserts [] mode))
      (hcursors : r'.oplogCursors = { r.oplogCursors with tail := tail })
      (hver : r.currentVer ≤ r'.currentVer)
  | rolledBack (target tail : DeviceSeq) (htarget : target < r.oplogCursors.tail)
      (htail : tail.val = r.oplogCursors.tail.val + 1)
      (hlog : r'.oplog = r.oplog.insert r.oplogCursors.tail (.rollback target))
      (hcursors : r'.oplogCursors = ⟨r.oplogCursors.head, r.oplogCursors.tail, tail⟩)
      (hver : r'.currentVer = r.currentVer) (hdone : r.rollback target = .ok r')
  | trimmed (through : DeviceSeq)
      (hlog : r'.oplog = r.oplog.retain fun seq _ => decide (through < seq))
      (hcursors : r'.oplogCursors = ⟨max r.oplogCursors.head (advanced r through),
        max r.oplogCursors.neck (advanced r through), r.oplogCursors.tail⟩)
      (hver : r'.currentVer = r.currentVer)
      (hconfirmed : through < r.oplogCursors.neck → r'.confirmed = r.confirmed)

section Steps

variable {r r' : SpaceRecords}

theorem orStorage_eq_ok {α : Type} {error : StorageError} {x : Option α} {a : α}
    (h : orStorage error x = .ok a) : x = some a := by
  cases x <;> cases h
  rfl

theorem plus_eq_ok {a b c : U64} (h : plus a b = .ok c) : c.val = a.val + b.val := by
  rw [plus] at h
  split at h
  next sum hsum =>
    cases h
    exact U64.checkedAdd_eq_some hsum
  · cases h

/-- `commit`: an append at the tail that uses up the versions of its entries. -/
theorem commit_eq_ok {reserved : ReservedCommit} {entries : List SealedEntry} {committed : Committed}
    (h : r.commit reserved entries = .ok (committed, r')) :
    entries.length = reserved.versions.length ∧ reserved.seq = r.oplogCursors.tail ∧
      r.currentVer.val + (U64.ofNat entries.length).val = reserved.verHigh.val ∧
      r'.currentVer = reserved.verHigh ∧ ∃ tail, tail.val = r.oplogCursors.tail.val + 1 ∧
      r'.oplog = r.oplog.insert r.oplogCursors.tail
        (.commit entries reserved.rangeAsserts [] reserved.submitMode) ∧
      r'.oplogCursors = { r.oplogCursors with tail := tail } := by
  rw [SpaceRecords.commit] at h
  obtain ⟨hlength, h⟩ := of_guard h
  obtain ⟨expected, hexpected, h⟩ := of_bind h
  obtain ⟨hstale, h⟩ := of_guard h
  obtain ⟨tail, htail, h⟩ := of_bind h
  cases h
  obtain ⟨hseq, hver⟩ := not_or.mp hstale
  have hseq := not_not.mp hseq
  have hver := not_not.mp hver
  refine ⟨not_not.mp hlength, hseq.symm, ?_, rfl, tail, ?_, ?_, rfl⟩
  · rw [hver]
    exact U64.checkedSub_eq_some (orStorage_eq_ok hexpected)
  · rw [hseq]
    exact plus_eq_ok htail
  · rw [hseq]
    rfl

variable {target : DeviceSeq}

/-- `rollback`: nothing, or a marker at the tail which is the new window. -/
theorem rollback_eq_ok (h : r.rollback target = .ok r') :
    (r' = r ∧ target < r.oplogCursors.neck ∧ r.rolledBack target = true) ∨
      (r.oplogCursors.neck ≤ target ∧ target < r.oplogCursors.tail ∧ ∃ tail : DeviceSeq,
        tail.val = r.oplogCursors.tail.val + 1 ∧
        r' = { r with oplog := r.oplog.insert r.oplogCursors.tail (.rollback target),
                      cursors := some ⟨r.oplogCursors.head, r.oplogCursors.tail, tail⟩ }) := by
  rw [SpaceRecords.rollback] at h
  split at h
  next hdone =>
    cases h
    exact .inl ⟨rfl, hdone⟩
  · obtain ⟨hwindow, h⟩ := of_guard h
    obtain ⟨tail, htail, h⟩ := of_bind h
    cases h
    obtain ⟨hneck, htarget⟩ := not_or.mp hwindow
    exact .inr ⟨not_lt.mp hneck, not_le.mp htarget, tail,
      U64.checkedAdd_eq_some (orStorage_eq_ok htail), rfl⟩

/-- `rollback_if_unchanged`: a rollback from one of two cursors. -/
theorem rollbackIfUnchanged_eq_ok {expected : OplogCursors}
    (h : r.rollbackIfUnchanged target expected = .ok r') :
    r.rollback target = .ok r' ∧ ∃ tail : DeviceSeq, tail.val = expected.tail.val + 1 ∧
      (r.oplogCursors = expected ∨ r.oplogCursors = ⟨expected.head, expected.tail, tail⟩) := by
  obtain ⟨tail, htail, h⟩ := of_bind h
  dsimp only at h
  obtain ⟨hcursors, h⟩ := of_guard h
  refine ⟨h, tail, U64.checkedAdd_eq_some (orStorage_eq_ok htail), ?_⟩
  rcases not_and_or.mp hcursors with hcursors | hcursors
  · exact .inl (not_not.mp hcursors)
  · exact .inr (not_not.mp hcursors)

/-- `trim_oplog`: the cursors advance together. -/
theorem trimOplog_eq_ok {through : DeviceSeq} {checksum : DeviceChecksum}
    (h : r.trimOplog through checksum = .ok r') :
    r'.oplog = r.oplog.retain (fun seq _ => decide (through < seq)) ∧
      r'.oplogCursors = ⟨max r.oplogCursors.head (advanced r through),
        max r.oplogCursors.neck (advanced r through), r.oplogCursors.tail⟩ ∧
      r'.currentVer = r.currentVer ∧
      (through < r.oplogCursors.neck → r'.confirmed = r.confirmed) := by
  rw [SpaceRecords.trimOplog] at h
  dsimp only at h
  obtain ⟨hchecksum, h⟩ := of_guard h
  cases h
  refine ⟨rfl, ?_, rfl, ?_⟩
  · split
    · rfl
    next hsame =>
      obtain ⟨hhead, hneck⟩ := not_or.mp hsame
      rw [advanced, not_not.mp hhead, not_not.mp hneck]
      rfl
  · intro hlow
    have hsame : checksum = r.confirmed := by
      by_contra hne
      exact hchecksum ⟨hlow, hne⟩
    exact hsame

theorem OplogStep.of_rollback (h : r.rollback target = .ok r') : OplogStep r r' := by
  rcases rollback_eq_ok h with ⟨hsame, -, -⟩ | ⟨-, htarget, tail, htail, hr⟩
  · exact .unchanged hsame
  · refine .rolledBack target tail htarget htail ?_ ?_ ?_ h
    · rw [hr]
    · rw [hr]
      rfl
    · rw [hr]
      rfl

/-- A call is one of these steps. -/
theorem OplogStep.of_call {call : OplogCall} (h : r.oplogCall call = .ok r') : OplogStep r r' := by
  cases call with
  | commit reserved entries =>
    cases hcommit : r.commit reserved entries with
    | error fault =>
      rw [SpaceRecords.oplogCall, hcommit] at h
      cases h
    | ok result =>
      obtain ⟨committed, r₁⟩ := result
      rw [SpaceRecords.oplogCall, hcommit] at h
      cases h
      obtain ⟨-, -, hhigh, hver, tail, htail, hlog, hcursors⟩ := commit_eq_ok hcommit
      refine .committed entries _ _ tail htail hlog hcursors ?_
      rw [hver, Fin.le_def]
      omega
  | trimOplog through checksum =>
    obtain ⟨hlog, hcursors, hver, hconfirmed⟩ := trimOplog_eq_ok h
    exact .trimmed through hlog hcursors hver hconfirmed
  | rollback target => exact .of_rollback h
  | rollbackIfUnchanged target expected => exact .of_rollback (rollbackIfUnchanged_eq_ok h).1

theorem OplogStep.afterCall (r : SpaceRecords) (call : OplogCall) : OplogStep r (r.afterCall call) := by
  unfold SpaceRecords.afterCall
  split
  next r' h => exact .of_call h
  · exact .unchanged rfl

end Steps

/-! ## The window -/

/-- The cursors are in order, every row is between head and tail, and the active window has
no gap. -/
structure Windowed (r : SpaceRecords) : Prop where
  head_le : r.oplogCursors.head ≤ r.oplogCursors.neck
  neck_le : r.oplogCursors.neck ≤ r.oplogCursors.tail
  bounds : ∀ seq op, r.oplog.get seq = some op →
    r.oplogCursors.head ≤ seq ∧ seq < r.oplogCursors.tail
  dense : ∀ seq, r.oplogCursors.neck ≤ seq → seq < r.oplogCursors.tail →
    ∃ op, r.oplog.get seq = some op

theorem Windowed.empty : Windowed SpaceRecords.empty where
  head_le := le_refl _
  neck_le := le_refl _
  bounds _ _ h := by cases h
  dense _ hlow hhigh := absurd hhigh (not_lt.mpr hlow)

section Window

variable {r r' : SpaceRecords}

variable {through seq : DeviceSeq}

/-- What a trim keeps inside the log is behind the cursors it moves. -/
theorem advanced_le_of_kept (h : through < seq) : advanced r through ≤ seq := by
  refine le_trans (min_le_left _ _) ?_
  rw [Fin.le_def, U64.val_saturatingAdd]
  have hlt := Fin.lt_def.mp h
  change min (through.val + 1) (2 ^ 64 - 1) ≤ seq.val
  omega

/-- What lies behind the cursors a trim moves is kept. -/
theorem kept_of_advanced_le (h : advanced r through ≤ seq) (htail : seq < r.oplogCursors.tail) :
    through < seq := by
  have hseq : U64.saturatingAdd through 1 ≤ seq := by
    rcases min_le_iff.mp h with h | h
    · exact h
    · exact absurd htail (not_lt.mpr h)
  rw [Fin.le_def, U64.val_saturatingAdd] at hseq
  change min (through.val + 1) (2 ^ 64 - 1) ≤ seq.val at hseq
  rw [Fin.lt_def] at htail ⊢
  have hbound := r.oplogCursors.tail.isLt
  omega

variable {tail tail' : DeviceSeq}

/-- A row at the tail moves the tail behind it. -/
theorem lt_of_tail (htail : tail'.val = tail.val + 1) (h : seq ≤ tail) : seq < tail' := by
  rw [Fin.lt_def, htail]
  exact Nat.lt_succ_of_le h

theorem le_of_lt_tail (htail : tail'.val = tail.val + 1) (h : seq < tail') : seq ≤ tail := by
  rw [Fin.lt_def, htail] at h
  exact Nat.le_of_lt_succ h

/-- An append keeps the window, if the neck stays or moves to the new row. -/
theorem Windowed.append (h : Windowed r) {op : DeviceOp} {neck : DeviceSeq}
    (htail : tail.val = r.oplogCursors.tail.val + 1)
    (hneck : neck = r.oplogCursors.neck ∨ neck = r.oplogCursors.tail)
    (hlog : r'.oplog = r.oplog.insert r.oplogCursors.tail op)
    (hcursors : r'.oplogCursors = ⟨r.oplogCursors.head, neck, tail⟩) : Windowed r' := by
  have hle : r.oplogCursors.neck ≤ neck := by
    rcases hneck with rfl | rfl
    · exact le_refl _
    · exact h.neck_le
  have hle' : neck ≤ r.oplogCursors.tail := by
    rcases hneck with rfl | rfl
    · exact h.neck_le
    · exact le_refl _
  constructor
  · rw [hcursors]
    exact le_trans h.head_le hle
  · rw [hcursors]
    exact le_of_lt (lt_of_tail htail hle')
  · intro seq other hget
    rw [hlog, OrdMap.get_insert] at hget
    rw [hcursors]
    split at hget
    next heq =>
      rw [heq]
      exact ⟨le_trans h.head_le h.neck_le, lt_of_tail htail (le_refl _)⟩
    · obtain ⟨hhead, hlt⟩ := h.bounds seq other hget
      exact ⟨hhead, lt_of_tail htail (le_of_lt hlt)⟩
  · intro seq hlow hhigh
    rw [hcursors] at hlow hhigh
    rw [hlog, OrdMap.get_insert]
    split
    · exact ⟨op, rfl⟩
    next hne =>
      have hlt : seq < r.oplogCursors.tail := lt_of_le_of_ne (le_of_lt_tail htail hhigh) hne
      exact h.dense seq (le_trans hle hlow) hlt

/-- Every step keeps the window. -/
theorem Windowed.step (h : Windowed r) (hstep : OplogStep r r') : Windowed r' := by
  cases hstep with
  | unchanged hsame => exact hsame ▸ h
  | committed entries asserts mode tail htail hlog hcursors hver =>
    exact h.append htail (.inl rfl) hlog hcursors
  | rolledBack target tail htarget htail hlog hcursors hver =>
    exact h.append htail (.inr rfl) hlog hcursors
  | trimmed through hlog hcursors hver hconfirmed =>
    have hget : ∀ seq op, r'.oplog.get seq = some op ↔ r.oplog.get seq = some op ∧ through < seq := by
      intro seq op
      rw [hlog, OrdMap.get_retain, Option.filter_eq_some_iff]
      simp
    constructor
    · rw [hcursors]
      exact max_le_max_right _ h.head_le
    · rw [hcursors]
      exact max_le h.neck_le (min_le_right _ _)
    · intro seq op hop
      obtain ⟨hop, hkept⟩ := (hget seq op).mp hop
      obtain ⟨hhead, hlt⟩ := h.bounds seq op hop
      rw [hcursors]
      exact ⟨max_le hhead (advanced_le_of_kept hkept), hlt⟩
    · intro seq hlow hhigh
      rw [hcursors] at hlow hhigh
      obtain ⟨hneck, hadvanced⟩ := max_le_iff.mp hlow
      obtain ⟨op, hop⟩ := h.dense seq hneck hhigh
      exact ⟨op, (hget seq op).mpr ⟨hop, kept_of_advanced_le hadvanced hhigh⟩⟩

/-- No step moves a cursor back. -/
theorem OplogStep.cursors_le (h : Windowed r) (hstep : OplogStep r r') :
    r.oplogCursors.head ≤ r'.oplogCursors.head ∧ r.oplogCursors.neck ≤ r'.oplogCursors.neck ∧
      r.oplogCursors.tail ≤ r'.oplogCursors.tail := by
  cases hstep with
  | unchanged hsame =>
    rw [hsame]
    exact ⟨le_refl _, le_refl _, le_refl _⟩
  | committed entries asserts mode tail htail hlog hcursors hver =>
    rw [hcursors]
    exact ⟨le_refl _, le_refl _, le_of_lt (lt_of_tail htail (le_refl _))⟩
  | rolledBack target tail htarget htail hlog hcursors hver =>
    rw [hcursors]
    exact ⟨le_refl _, h.neck_le, le_of_lt (lt_of_tail htail (le_refl _))⟩
  | trimmed through hlog hcursors hver hconfirmed =>
    rw [hcursors]
    exact ⟨le_max_left _ _, le_max_left _ _, le_refl _⟩

theorem OplogStep.ver_le (hstep : OplogStep r r') : r.currentVer ≤ r'.currentVer := by
  cases hstep with
  | unchanged hsame => exact hsame ▸ le_refl _
  | committed entries asserts mode tail htail hlog hcursors hver => exact hver
  | rolledBack target tail htarget htail hlog hcursors hver => exact le_of_eq hver.symm
  | trimmed through hlog hcursors hver hconfirmed => exact le_of_eq hver.symm

/-- A step that moves neither head nor tail of a log with rows changes nothing. -/
theorem OplogStep.same_of_cursors (h : Windowed r) (hstep : OplogStep r r')
    (hlt : r.oplogCursors.head < r.oplogCursors.tail)
    (hhead : r'.oplogCursors.head = r.oplogCursors.head)
    (htail : r'.oplogCursors.tail = r.oplogCursors.tail) : SameLog r r' := by
  cases hstep with
  | unchanged hsame => exact hsame ▸ .refl r
  | committed entries asserts mode tail htail' hlog hcursors hver =>
    rw [hcursors] at htail
    exact absurd htail (ne_of_gt (lt_of_tail htail' (le_refl _)))
  | rolledBack target tail htarget htail' hlog hcursors hver =>
    rw [hcursors] at htail
    exact absurd htail (ne_of_gt (lt_of_tail htail' (le_refl _)))
  | trimmed through hlog hcursors hver hconfirmed =>
    have hadvanced : advanced r through ≤ r.oplogCursors.head := by
      rw [hcursors] at hhead
      exact max_eq_left_iff.mp hhead
    refine ⟨?_, ?_, hver, ?_⟩
    · rw [hcursors, max_eq_left hadvanced, max_eq_left (le_trans hadvanced h.head_le)]
    · refine OrdMap.ext_get fun seq => ?_
      rw [hlog, OrdMap.get_retain]
      cases hop : r.oplog.get seq with
      | none => rfl
      | some op =>
        obtain ⟨hlow, hhigh⟩ := h.bounds seq op hop
        have hkept := kept_of_advanced_le (le_trans hadvanced hlow) hhigh
        simp [hkept]
    · refine hconfirmed ?_
      -- a trim that reaches the neck would move the head
      by_contra hlow
      have hkept := kept_of_advanced_le hadvanced hlt
      exact hlow (lt_of_lt_of_le hkept h.head_le)

end Window

end Homebase.Client
