import Homebase.Client.Oplog

set_option autoImplicit false

/-!
# The algebra of oplog transitions

Over any sequence of calls with any arguments the active window has one row for each
sequence number, numbers and versions are never given twice, cursors never move back, and
a completed rollback can be repeated.
-/

namespace Homebase.Client

open Foundation Homebase.Core List

/-! ## What is given out -/

/-- A sequence number that was given to a record, with the versions the record used up. -/
structure Assignment where
  seq : DeviceSeq
  record : DeviceOp
  versions : List Nat

namespace SpaceRecords

/-- The versions between the high-water marks of two states. -/
def versionsBetween (r r' : SpaceRecords) : List Nat :=
  List.range' (r.currentVer.val + 1) (r'.currentVer.val - r.currentVer.val)

/-- What a call gives out: the number at the tail, if it moves the tail. -/
def assigned (r : SpaceRecords) (call : OplogCall) : List Assignment :=
  let r' := r.afterCall call
  if r'.oplogCursors.tail = r.oplogCursors.tail then []
  else (r'.oplog.get r.oplogCursors.tail).toList.map fun record =>
    ⟨r.oplogCursors.tail, record, r.versionsBetween r'⟩

/-- What a sequence of calls gives out. -/
def assignments : SpaceRecords → List OplogCall → List Assignment
  | _, [] => []
  | r, call :: calls => r.assigned call ++ (r.afterCall call).assignments calls

end SpaceRecords

section Assignments

variable {r : SpaceRecords} {call : OplogCall} {calls : List OplogCall}

/-- A call gives out nothing, or the number at the tail. -/
theorem assigned_cases (r : SpaceRecords) (call : OplogCall) :
    (r.assigned call = [] ∧ (r.afterCall call).oplogCursors.tail = r.oplogCursors.tail ∧
      ∀ seq op, (r.afterCall call).oplog.get seq = some op → r.oplog.get seq = some op) ∨
      ∃ op, r.assigned call = [⟨r.oplogCursors.tail, op, r.versionsBetween (r.afterCall call)⟩] ∧
        (r.afterCall call).oplogCursors.tail.val = r.oplogCursors.tail.val + 1 ∧
        (r.afterCall call).oplog = r.oplog.insert r.oplogCursors.tail op := by
  have happended : ∀ (op : DeviceOp) (tail : DeviceSeq), tail.val = r.oplogCursors.tail.val + 1 →
      (r.afterCall call).oplog = r.oplog.insert r.oplogCursors.tail op →
      (r.afterCall call).oplogCursors.tail = tail →
      r.assigned call = [⟨r.oplogCursors.tail, op, r.versionsBetween (r.afterCall call)⟩] := by
    intro op tail htail hlog hcursors
    have hne : (r.afterCall call).oplogCursors.tail ≠ r.oplogCursors.tail := by
      rw [hcursors]
      exact ne_of_gt (lt_of_tail htail (le_refl _))
    rw [SpaceRecords.assigned, if_neg hne, hlog, OrdMap.get_insert_self]
    rfl
  cases OplogStep.afterCall r call with
  | unchanged hsame =>
    refine .inl ⟨?_, by rw [hsame], fun seq op hop => by rwa [hsame] at hop⟩
    rw [SpaceRecords.assigned]
    exact if_pos (by rw [hsame])
  | committed entries asserts mode tail htail hlog hcursors hver =>
    have htail' : (r.afterCall call).oplogCursors.tail = tail := by rw [hcursors]
    exact .inr ⟨_, happended _ tail htail hlog htail', by rw [htail', htail], hlog⟩
  | rolledBack target tail htarget htail hlog hcursors hver =>
    have htail' : (r.afterCall call).oplogCursors.tail = tail := by rw [hcursors]
    exact .inr ⟨_, happended _ tail htail hlog htail', by rw [htail', htail], hlog⟩
  | trimmed through hlog hcursors hver hconfirmed =>
    refine .inl ⟨?_, by rw [hcursors], fun seq op hop => ?_⟩
    · rw [SpaceRecords.assigned]
      exact if_pos (by rw [hcursors])
    · rw [hlog, OrdMap.get_retain, Option.filter_eq_some_iff] at hop
      exact hop.1

theorem mem_versionsBetween {r r' : SpaceRecords} {v : Nat} :
    v ∈ r.versionsBetween r' ↔ r.currentVer.val < v ∧ v ≤ r'.currentVer.val := by
  rw [SpaceRecords.versionsBetween, mem_range'_1]
  omega

/-- What is given out is at the tail or behind it, above the high-water. -/
theorem assignments_above {a : Assignment} (h : a ∈ r.assignments calls) :
    r.oplogCursors.tail ≤ a.seq ∧ ∀ v ∈ a.versions, r.currentVer.val < v := by
  induction calls generalizing r with
  | nil => cases h
  | cons call calls ih =>
    rcases mem_append.mp h with h | h
    · rcases assigned_cases r call with ⟨hnone, -⟩ | ⟨op, hassigned, -, -⟩
      · rw [hnone] at h
        cases h
      · rw [hassigned] at h
        cases mem_singleton.mp h
        exact ⟨le_refl _, fun v hv => (mem_versionsBetween.mp hv).1⟩
    · obtain ⟨hseq, hver⟩ := ih h
      have hver' := (OplogStep.afterCall r call).ver_le
      refine ⟨le_trans ?_ hseq, fun v hv => lt_of_le_of_lt hver' (hver v hv)⟩
      rcases assigned_cases r call with ⟨-, htail, -⟩ | ⟨op, -, htail, -⟩
      · exact le_of_eq htail.symm
      · exact le_of_lt (lt_of_tail htail (le_refl _))

/-- Numbers are given out in rising order. -/
theorem assignments_rising (r : SpaceRecords) (calls : List OplogCall) :
    (r.assignments calls).Pairwise fun a b => a.seq < b.seq := by
  induction calls generalizing r with
  | nil => exact .nil
  | cons call calls ih =>
    refine pairwise_append.mpr ⟨?_, ih _, ?_⟩
    · rcases assigned_cases r call with ⟨hnone, -⟩ | ⟨op, hassigned, -, -⟩
      · rw [hnone]
        exact .nil
      · rw [hassigned]
        exact pairwise_singleton _ _
    · intro a ha b hb
      rcases assigned_cases r call with ⟨hnone, -⟩ | ⟨op, hassigned, htail, -⟩
      · rw [hnone] at ha
        cases ha
      · rw [hassigned] at ha
        cases mem_singleton.mp ha
        exact lt_of_lt_of_le (lt_of_tail htail (le_refl _)) (assignments_above hb).1

/-- Versions are given out in rising order. -/
theorem versions_rising (r : SpaceRecords) (calls : List OplogCall) :
    ((r.assignments calls).flatMap Assignment.versions).Pairwise (· < ·) := by
  induction calls generalizing r with
  | nil => exact .nil
  | cons call calls ih =>
    rw [SpaceRecords.assignments, flatMap_append]
    refine pairwise_append.mpr ⟨?_, ih _, ?_⟩
    · rcases assigned_cases r call with ⟨hnone, -⟩ | ⟨op, hassigned, -, -⟩
      · rw [hnone]
        exact .nil
      · rw [hassigned, flatMap_singleton]
        exact pairwise_lt_range'
    · intro v hv w hw
      obtain ⟨b, hb, hw⟩ := mem_flatMap.mp hw
      have hlow := (assignments_above hb).2 w hw
      rcases assigned_cases r call with ⟨hnone, -⟩ | ⟨op, hassigned, -, -⟩
      · rw [hnone] at hv
        cases hv
      · rw [hassigned, flatMap_singleton] at hv
        exact lt_of_le_of_lt (mem_versionsBetween.mp hv).2 hlow

/-- A stored row was there at the start or was given its number by one of the calls. -/
theorem stored_of_assigned {seq : DeviceSeq} {op : DeviceOp}
    (h : (r.afterCalls calls).oplog.get seq = some op) :
    r.oplog.get seq = some op ∨ ∃ a ∈ r.assignments calls, a.seq = seq ∧ a.record = op := by
  induction calls generalizing r with
  | nil => exact .inl h
  | cons call calls ih =>
    rcases ih h with h | ⟨a, ha, hseq⟩
    · rcases assigned_cases r call with ⟨-, -, hstored⟩ | ⟨op', hassigned, -, hlog⟩
      · exact .inl (hstored seq op h)
      · rw [hlog, OrdMap.get_insert] at h
        split at h
        next heq =>
          cases h
          refine .inr ⟨_, mem_append_left _ (hassigned ▸ mem_singleton_self _), heq.symm, rfl⟩
        · exact .inl h
    · exact .inr ⟨a, mem_append_right _ ha, hseq⟩

end Assignments

/-! ## Runs -/

section Runs

variable {r : SpaceRecords} {calls : List OplogCall}

/-- Every run keeps the window and moves no cursor back. -/
theorem Windowed.run (h : Windowed r) (calls : List OplogCall) :
    Windowed (r.afterCalls calls) ∧
      r.oplogCursors.head ≤ (r.afterCalls calls).oplogCursors.head ∧
      r.oplogCursors.neck ≤ (r.afterCalls calls).oplogCursors.neck ∧
      r.oplogCursors.tail ≤ (r.afterCalls calls).oplogCursors.tail := by
  induction calls generalizing r with
  | nil => exact ⟨h, le_refl _, le_refl _, le_refl _⟩
  | cons call calls ih =>
    obtain ⟨hhead, hneck, htail⟩ := (OplogStep.afterCall r call).cursors_le h
    obtain ⟨hrun, hhead', hneck', htail'⟩ := ih (h.step (.afterCall r call))
    exact ⟨hrun, hhead.trans hhead', hneck.trans hneck', htail.trans htail'⟩

/-- A run that moves neither head nor tail of a log with rows changes nothing. -/
theorem sameLog_run (calls : List OplogCall) (h : Windowed r)
    (hlt : r.oplogCursors.head < r.oplogCursors.tail)
    (hhead : (r.afterCalls calls).oplogCursors.head = r.oplogCursors.head)
    (htail : (r.afterCalls calls).oplogCursors.tail = r.oplogCursors.tail) :
    SameLog r (r.afterCalls calls) := by
  induction calls generalizing r with
  | nil => exact .refl r
  | cons call calls ih =>
    have hstep := OplogStep.afterCall r call
    obtain ⟨hhead₁, -, htail₁⟩ := hstep.cursors_le h
    obtain ⟨-, hhead₂, -, htail₂⟩ := (h.step hstep).run calls
    have hhead' : (r.afterCall call).oplogCursors.head = r.oplogCursors.head :=
      le_antisymm (hhead₂.trans (le_of_eq hhead)) hhead₁
    have htail' : (r.afterCall call).oplogCursors.tail = r.oplogCursors.tail :=
      le_antisymm (htail₂.trans (le_of_eq htail)) htail₁
    have hsame := hstep.same_of_cursors h hlt hhead' htail'
    refine hsame.trans (ih (h.step hstep) ?_ ?_ ?_)
    · rw [hhead', htail']
      exact hlt
    · exact hhead.trans hhead'.symm
    · exact htail.trans htail'.symm

/-- The state that looks like a completed rollback from cursors that were there is what that
rollback left behind. -/
theorem completed_origin (h : Windowed r) {target tail : DeviceSeq} {expected : OplogCursors}
    (hcursors : r.oplogCursors = expected) (hneck : expected.neck ≤ target)
    (htarget : target < expected.tail) (htail : tail.val = expected.tail.val + 1)
    (hfinal : (r.afterCalls calls).oplogCursors = ⟨expected.head, expected.tail, tail⟩)
    (hmarker : (r.afterCalls calls).oplog.get expected.tail = some (.rollback target)) :
    ∃ pre call post, calls = pre ++ call :: post ∧ (r.afterCalls pre).oplogCursors = expected ∧
      (r.afterCalls pre).rollback target = .ok (r.afterCalls (pre ++ [call])) ∧
      SameLog (r.afterCalls (pre ++ [call])) (r.afterCalls calls) := by
  induction calls generalizing r with
  | nil =>
    have htails := congrArg OplogCursors.tail (hcursors.symm.trans hfinal)
    exact absurd htails (ne_of_lt (lt_of_tail htail (le_refl _)))
  | cons call calls ih =>
    have hstep := OplogStep.afterCall r call
    have hnext := h.step hstep
    obtain ⟨hhead₁, -, htail₁⟩ := hstep.cursors_le h
    obtain ⟨-, hhead₂, -, htail₂⟩ := hnext.run calls
    have hfinalHead : ((r.afterCall call).afterCalls calls).oplogCursors.head = expected.head := by
      rw [← SpaceRecords.afterCalls_cons, hfinal]
    have hfinalTail : ((r.afterCall call).afterCalls calls).oplogCursors.tail = tail := by
      rw [← SpaceRecords.afterCalls_cons, hfinal]
    have hhead : (r.afterCall call).oplogCursors.head = expected.head := by
      refine le_antisymm (hhead₂.trans (le_of_eq hfinalHead)) ?_
      rw [← hcursors]
      exact hhead₁
    have hlt : r.oplogCursors.head < r.oplogCursors.tail := by
      refine lt_of_le_of_lt h.head_le ?_
      rw [hcursors]
      exact lt_of_le_of_lt hneck htarget
    by_cases hsame : (r.afterCall call).oplogCursors.tail = expected.tail
    -- the call left the cursors alone
    · have hlog := hstep.same_of_cursors h hlt (by rw [hhead, hcursors]) (by rw [hsame, hcursors])
      obtain ⟨pre, call', post, hcalls, hpre, hdone, hrest⟩ :=
        ih hnext (hlog.cursors.trans hcursors) hfinal hmarker
      exact ⟨call :: pre, call', post, by rw [hcalls]; rfl, hpre, hdone, hrest⟩
    -- the call moved the tail: it is the rollback
    · have htail' : (r.afterCall call).oplogCursors.tail = tail := by
        rcases assigned_cases r call with ⟨-, hunmoved, -⟩ | ⟨-, -, hmoved, -⟩
        · exact absurd (hunmoved.trans (congrArg OplogCursors.tail hcursors)) hsame
        · refine Fin.ext ?_
          rw [hmoved, hcursors, htail]
      have hlt' : (r.afterCall call).oplogCursors.head < (r.afterCall call).oplogCursors.tail := by
        rw [hcursors] at hlt
        rw [hhead, htail']
        exact lt_of_tail htail (le_of_lt hlt)
      have hrest := sameLog_run calls hnext hlt' (hfinalHead.trans hhead.symm)
        (hfinalTail.trans htail'.symm)
      have hrow : (r.afterCall call).oplog.get r.oplogCursors.tail = some (.rollback target) := by
        rw [← hrest.oplog, hcursors]
        exact hmarker
      have hdone : r.rollback target = .ok (r.afterCall call) := by
        cases hstep with
        | unchanged hunchanged =>
          rw [hunchanged, hcursors] at hsame
          exact absurd rfl hsame
        | committed entries asserts mode tail' htail'' hlog hcursors' hver =>
          rw [hlog, OrdMap.get_insert_self] at hrow
          cases hrow
        | rolledBack target' tail' htarget' htail'' hlog hcursors' hver hdone =>
          rw [hlog, OrdMap.get_insert_self] at hrow
          cases hrow
          exact hdone
        | trimmed through hlog hcursors' hver hconfirmed =>
          rw [hcursors', hcursors] at hsame
          exact absurd rfl hsame
      exact ⟨[], call, calls, rfl, hcursors, hdone, hrest⟩

end Runs

/-! ## Repeated rollbacks -/

variable {r r' : SpaceRecords} {target : DeviceSeq}

/-- A rollback that completed can be repeated. -/
theorem rollback_again (h : r.rollback target = .ok r') : r'.rollback target = .ok r' := by
  have hdone : target < r'.oplogCursors.neck ∧ r'.rolledBack target = true := by
    rcases rollback_eq_ok h with ⟨rfl, hdone⟩ | ⟨-, htarget, tail, htail, rfl⟩
    · exact hdone
    · refine ⟨htarget, Bool.and_eq_true_iff.mpr ⟨decide_eq_true ?_, decide_eq_true ?_⟩⟩
      · refine (U64.checkedAdd_of_lt ?_).trans (congrArg some (Fin.ext htail.symm))
        have hbound := tail.isLt
        rw [htail] at hbound
        exact hbound
      · exact OrdMap.get_insert_self _ _ _
  rw [SpaceRecords.rollback, if_pos hdone]

/-- Where a guarded rollback of a row in the window succeeds. -/
theorem rollbackIfUnchanged_only {expected : OplogCursors}
    (h : r.rollbackIfUnchanged target expected = .ok r') (htarget : target < expected.tail) :
    r.oplogCursors = expected ∨ (r' = r ∧ r.oplog.get expected.tail = some (.rollback target) ∧
      ∃ tail : DeviceSeq, tail.val = expected.tail.val + 1 ∧
        r.oplogCursors = ⟨expected.head, expected.tail, tail⟩) := by
  obtain ⟨hrollback, tail, htail, hcursors⟩ := rollbackIfUnchanged_eq_ok h
  refine hcursors.imp_right fun hcursors => ?_
  rcases rollback_eq_ok hrollback with ⟨hsame, -, hdone⟩ | ⟨hneck, -⟩
  · have hmarker := of_decide_eq_true (Bool.and_eq_true_iff.mp hdone).2
    rw [hcursors] at hmarker
    exact ⟨hsame, hmarker, tail, htail, hcursors⟩
  · rw [hcursors] at hneck
    exact absurd htarget (not_lt.mpr hneck)

/-- A reservation the store made, in whatever state, has the versions a commit uses up. -/
theorem versions_of_reserved {r₀ : SpaceRecords} {count : Nat} {asserts : List RangeAssert}
    {mode : SubmitMode} {reserved : ReservedCommit} {entries : List SealedEntry}
    {committed : Committed} (hreserved : r₀.reserveCommit count asserts mode = .ok reserved)
    (h : r.commit reserved entries = .ok (committed, r')) :
    reserved.versions.map Fin.val = r.versionsBetween r' := by
  obtain ⟨versions, hversions, hreserved⟩ := of_bind hreserved
  cases hreserved
  rw [SpaceRecords.versionsAbove] at hversions
  split at hversions
  next hbound =>
    cases hversions
    obtain ⟨hlength, -, hhigh, hver, -⟩ := commit_eq_ok h
    rw [length_map, length_range] at hlength
    have hcount : (U64.ofNat entries.length).val = count := by
      rw [hlength]
      exact U64.val_ofNat (by omega)
    have hlast : (((List.range count).map fun i =>
        U64.ofNat (r₀.currentVer.val + 1 + i)).getLast?.getD r₀.currentVer).val =
        r₀.currentVer.val + count := by
      cases count with
      | zero => rfl
      | succ n =>
        rw [range_succ, map_append, map_singleton, getLast?_concat]
        change (U64.ofNat (r₀.currentVer.val + 1 + n)).val = _
        rw [U64.val_ofNat (by omega)]
        omega
    dsimp only at hhigh hver
    rw [hcount, hlast] at hhigh
    have hsame : r.currentVer.val = r₀.currentVer.val := by omega
    have hend : r'.currentVer.val = r₀.currentVer.val + count := by
      rw [hver]
      exact hlast
    rw [SpaceRecords.versionsBetween, hsame, hend, Nat.add_sub_cancel_left, range'_eq_map_range,
      map_map]
    refine map_congr_left fun i hi => ?_
    have hi := mem_range.mp hi
    exact U64.val_ofNat (by omega)
  · cases hversions

/-! ## The laws -/

/-- A guarded rollback succeeds although the cursors it expects were never there: a rollback
to the same row from another window has left the same cursors and the same marker. -/
theorem rollbackIfUnchanged_other_window :
    ∃ (calls : List OplogCall) (target : DeviceSeq) (expected : OplogCursors),
      expected.neck ≤ target ∧ target < expected.tail ∧
      (SpaceRecords.empty.afterCalls calls).rollbackIfUnchanged target expected =
        .ok (SpaceRecords.empty.afterCalls calls) ∧
      ∀ pre, pre <+: calls → (SpaceRecords.empty.afterCalls pre).oplogCursors ≠ expected := by
  refine ⟨[.commit ⟨1, 0, [], [], .unchecked⟩ [], .commit ⟨2, 0, [], [], .unchecked⟩ [], .rollback 2],
    2, ⟨1, 2, 3⟩, by decide, by decide, rfl, ?_⟩
  intro pre hpre
  rcases prefix_cons_iff.mp hpre with rfl | ⟨rest₁, rfl, hpre₁⟩
  · decide
  rcases prefix_cons_iff.mp hpre₁ with rfl | ⟨rest₂, rfl, hpre₂⟩
  · decide
  rcases prefix_cons_iff.mp hpre₂ with rfl | ⟨rest₃, rfl, hpre₃⟩
  · decide
  cases prefix_nil.mp hpre₃
  decide

/-- The algebra of oplog transitions, in the state after any calls: one row for each number of
the window; numbers and versions given out in rising order; cursors in order, none of which a
call moves back; failed calls without effect; rollbacks that can be repeated; and guarded
rollbacks that succeed only from the cursors they expect or where a rollback to the same row
has left its marker, which is exactly what they left behind themselves if the space did have
these cursors. -/
theorem oplog_transitions (start : SpaceRecords) (hstart : Windowed start) (calls : List OplogCall) :
    (∀ seq, (start.afterCalls calls).oplogCursors.neck ≤ seq →
      seq < (start.afterCalls calls).oplogCursors.tail →
      (start.afterCalls calls).oplog.count (fun s => decide (s = seq)) = 1) ∧
    ((start.assignments calls).Pairwise fun a b => a.seq < b.seq) ∧
    (∀ seq op, (start.afterCalls calls).oplog.get seq = some op → start.oplog.get seq = some op ∨
      ∃ a ∈ start.assignments calls, a.seq = seq ∧ a.record = op) ∧
    ((start.assignments calls).flatMap Assignment.versions).Pairwise (· < ·) ∧
    (∀ (r₀ : SpaceRecords) (count : Nat) (asserts : List RangeAssert) (mode : SubmitMode)
      (reserved : ReservedCommit) (entries : List SealedEntry) (committed : Committed)
      (r' : SpaceRecords), r₀.reserveCommit count asserts mode = .ok reserved →
      (start.afterCalls calls).commit reserved entries = .ok (committed, r') →
      reserved.versions.map Fin.val = (start.afterCalls calls).versionsBetween r') ∧
    (start.afterCalls calls).oplogCursors.head ≤ (start.afterCalls calls).oplogCursors.neck ∧
    (start.afterCalls calls).oplogCursors.neck ≤ (start.afterCalls calls).oplogCursors.tail ∧
    (∀ call, (start.afterCalls calls).oplogCursors.head ≤
        (start.afterCalls (calls ++ [call])).oplogCursors.head ∧
      (start.afterCalls calls).oplogCursors.neck ≤
        (start.afterCalls (calls ++ [call])).oplogCursors.neck ∧
      (start.afterCalls calls).oplogCursors.tail ≤
        (start.afterCalls (calls ++ [call])).oplogCursors.tail) ∧
    (∀ call fault, (start.afterCalls calls).oplogCall call = .error fault →
      start.afterCalls (calls ++ [call]) = start.afterCalls calls) ∧
    (∀ target r', (start.afterCalls calls).rollback target = .ok r' →
      r'.rollback target = .ok r') ∧
    ∀ target expected r', expected.neck ≤ target → target < expected.tail →
      (start.afterCalls calls).rollbackIfUnchanged target expected = .ok r' →
      (start.afterCalls calls).oplogCursors = expected ∨
      (r' = start.afterCalls calls ∧
        (start.afterCalls calls).oplog.get expected.tail = some (.rollback target) ∧
        (∃ tail : DeviceSeq, tail.val = expected.tail.val + 1 ∧
          (start.afterCalls calls).oplogCursors = ⟨expected.head, expected.tail, tail⟩) ∧
        ∀ pre post, calls = pre ++ post → (start.afterCalls pre).oplogCursors = expected →
          ∃ mid call rest, post = mid ++ call :: rest ∧
            (start.afterCalls (pre ++ mid)).oplogCursors = expected ∧
            (start.afterCalls (pre ++ mid)).rollback target =
              .ok (start.afterCalls (pre ++ (mid ++ [call]))) ∧
            SameLog (start.afterCalls (pre ++ (mid ++ [call]))) (start.afterCalls calls)) := by
  obtain ⟨hrun, -⟩ := hstart.run calls
  refine ⟨?_, assignments_rising start calls, fun seq op => stored_of_assigned,
    versions_rising start calls, ?_, hrun.head_le, hrun.neck_le, ?_, ?_, ?_, ?_⟩
  · intro seq hlow hhigh
    obtain ⟨op, hop⟩ := hrun.dense seq hlow hhigh
    rw [OrdMap.count_eq_self, hop]
    rfl
  · exact fun r₀ count asserts mode reserved entries committed r' => versions_of_reserved
  · intro call
    rw [SpaceRecords.afterCalls_append]
    exact (OplogStep.afterCall _ call).cursors_le hrun
  · intro call fault h
    rw [SpaceRecords.afterCalls_append, SpaceRecords.afterCalls_cons, SpaceRecords.afterCall, h]
    rfl
  · exact fun target r' => rollback_again
  · intro target expected r' hneck htarget h
    refine (rollbackIfUnchanged_only h htarget).imp_right fun ⟨hsame, hmarker, tail, htail, hcursors⟩ =>
      ⟨hsame, hmarker, ⟨tail, htail, hcursors⟩, ?_⟩
    rintro pre post rfl hexpected
    rw [SpaceRecords.afterCalls_append] at hmarker hcursors
    obtain ⟨mid, call, rest, hpost, hmid, hdone, hlog⟩ :=
      completed_origin (hstart.run pre).1 hexpected hneck htarget htail hcursors hmarker
    refine ⟨mid, call, rest, hpost, ?_, ?_, ?_⟩
    · rw [SpaceRecords.afterCalls_append]
      exact hmid
    · rw [SpaceRecords.afterCalls_append start pre mid,
        SpaceRecords.afterCalls_append start pre (mid ++ [call])]
      exact hdone
    · rw [SpaceRecords.afterCalls_append start pre (mid ++ [call]),
        SpaceRecords.afterCalls_append start pre post]
      exact hlog

/-- In a new space: two commits and a rollback of both. -/
theorem oplog_transitions_rolled_back :
    (SpaceRecords.empty.afterCalls [.commit ⟨1, 0, [], [], .unchecked⟩ [],
      .commit ⟨2, 0, [], [], .unchecked⟩ [], .rollbackIfUnchanged 1 ⟨1, 1, 3⟩]).oplogCursors =
        ⟨1, 3, 4⟩ ∧
    (SpaceRecords.empty.assignments [.commit ⟨1, 0, [], [], .unchecked⟩ [],
      .commit ⟨2, 0, [], [], .unchecked⟩ [], .rollbackIfUnchanged 1 ⟨1, 1, 3⟩]).Pairwise
        fun a b => a.seq < b.seq :=
  ⟨by decide, (oplog_transitions SpaceRecords.empty Windowed.empty _).2.1⟩

end Homebase.Client
