import Homebase.Client.Oplog
import Homebase.Client.Session

set_option autoImplicit false

/-!
# Client: the rows a push has still to ship

A push goes from the neck to its target, or to the end of the window.  Whatever one request takes
of these rows, it takes from the front and without a gap, and trimming the log behind it leaves
the others (`pending_trimmed`).
-/

namespace Homebase.Client

open Foundation Homebase.Core List

/-! ## Sorted rows -/

section Sorted

variable {K V : Type} [LinearOrder K]

/-- What is not above a bound comes first. -/
theorem filter_le_isPrefix {l : List (K × V)} (hl : l.Pairwise fun a b => a.1 < b.1) (bound : K) :
    (l.filter fun row => decide (row.1 ≤ bound)) <+: l := by
  induction l with
  | nil => exact prefix_rfl
  | cons row rest ih =>
    obtain ⟨hrow, hrest⟩ := pairwise_cons.mp hl
    by_cases hle : row.1 ≤ bound
    · rw [filter_cons_of_pos (by simpa using hle)]
      exact cons_prefix_cons.mpr ⟨rfl, ih hrest⟩
    · have hnone : rest.filter (fun row => decide (row.1 ≤ bound)) = [] :=
        filter_eq_nil_iff.mpr fun other hother => by
          have hlt := (not_le.mp hle).trans (hrow other hother)
          simpa using hlt
      rw [filter_cons_of_neg (by simpa using hle), hnone]
      exact nil_prefix

/-- What is above the last row of a front part is the rest. -/
theorem filter_gt_append {front back : List (K × V)} {last : K × V}
    (hl : (front ++ back).Pairwise fun a b => a.1 < b.1) (hlast : front.getLast? = some last) :
    ((front ++ back).filter fun row => decide (last.1 < row.1)) = back := by
  obtain ⟨init, rfl⟩ := getLast?_eq_some_iff.mp hlast
  obtain ⟨hfront, -, hback⟩ := pairwise_append.mp hl
  obtain ⟨-, -, hinit⟩ := pairwise_append.mp hfront
  rw [filter_append, filter_eq_nil_iff.mpr, filter_eq_self.mpr, nil_append]
  · intro row hrow
    simpa using hback last (by simp) row hrow
  · intro row hrow
    rcases mem_append.mp hrow with hrow | hrow
    · simpa using (hinit row hrow last (by simp)).le
    · simp [mem_singleton.mp hrow]

end Sorted

/-! ## The rows of a window -/

/-- The last sequence a push is after: its target, or the last of the window. -/
def streamEnd (through : Option DeviceSeq) (cursors : OplogCursors) : DeviceSeq :=
  through.elim (U64.saturatingSub cursors.tail 1) fun target =>
    min target (U64.saturatingSub cursors.tail 1)

/-- The rows a push has still to ship. -/
def pending (through : Option DeviceSeq) (r : SpaceRecords) : List (DeviceSeq × DeviceOp) :=
  r.oplogRows r.oplogCursors.neck (streamEnd through r.oplogCursors)

theorem windowEnd_eq (through : Option DeviceSeq) (cursors : OplogCursors) (cap : U64) :
    windowEnd through cursors cap =
      min (U64.saturatingAdd cursors.neck (U64.saturatingSub cap 1)) (streamEnd through cursors) :=
  rfl

variable {target : DeviceSeq}

variable {cursors : OplogCursors}

/-- A target the cursors alone do not settle is inside the window. -/
theorem settledTarget_eq_none_iff :
    settledTarget (some target) cursors = none ↔
      cursors.head ≤ target ∧ cursors.neck ≤ target ∧ target < cursors.tail := by
  simp only [settledTarget]
  split
  next hlow => simp [hlow]
  next hlow =>
    split
    next hout =>
      simp only [reduceCtorEq, false_iff]
      rintro ⟨-, hneck, htail⟩
      rcases hout with hout | hout
      · exact absurd hneck (not_le.mpr hout)
      · exact absurd htail (not_lt.mpr hout)
    next hin =>
      obtain ⟨hneck, htail⟩ := not_or.mp hin
      exact iff_of_true rfl ⟨not_lt.mp hlow, not_lt.mp hneck, not_le.mp htail⟩

variable {through : Option DeviceSeq}

/-- As long as the target is inside a window that is not empty, there is something to ship. -/
theorem neck_le_streamEnd (htarget : settledTarget through cursors = none)
    (hlt : cursors.neck < cursors.tail) : cursors.neck ≤ streamEnd through cursors := by
  have hlast : cursors.neck ≤ U64.saturatingSub cursors.tail 1 := by
    rw [Fin.le_def, U64.val_saturatingSub]
    change cursors.neck.val ≤ cursors.tail.val - 1
    have := Fin.lt_def.mp hlt
    omega
  cases through with
  | none => exact hlast
  | some target => exact le_min (settledTarget_eq_none_iff.mp htarget).2.1 hlast

section Rows

variable {r : SpaceRecords} {through : Option DeviceSeq} {row : DeviceSeq × DeviceOp}
  {first last : DeviceSeq}

theorem mem_oplogRows : row ∈ r.oplogRows first last ↔
      row ∈ r.oplog.entries ∧ first ≤ row.1 ∧ row.1 ≤ last := by
  simp [SpaceRecords.oplogRows]

theorem oplogRows_sorted (first last : DeviceSeq) :
    (r.oplogRows first last).Pairwise fun a b => a.1 < b.1 := r.oplog.sorted.filter _

variable {stop : DeviceSeq}

/-- A shorter read is the front of a longer one. -/
theorem oplogRows_isPrefix (hle : stop ≤ last) :
    r.oplogRows first stop <+: r.oplogRows first last := by
  have heq : r.oplogRows first stop =
      (r.oplogRows first last).filter fun row => decide (row.1 ≤ stop) := by
    rw [SpaceRecords.oplogRows, SpaceRecords.oplogRows, filter_filter]
    refine filter_congr fun row _ => ?_
    rw [Bool.eq_iff_iff]
    simp only [Bool.and_eq_true, decide_eq_true_eq]
    constructor
    · rintro ⟨hfirst, hstop⟩
      exact ⟨hstop, hfirst, hstop.trans hle⟩
    · rintro ⟨hstop, hfirst, -⟩
      exact ⟨hfirst, hstop⟩
  rw [heq]
  exact filter_le_isPrefix (oplogRows_sorted first last) stop

/-- What is to be shipped lies in the window. -/
theorem bounds_of_mem_pending (h : row ∈ pending through r) :
    r.oplogCursors.neck ≤ row.1 ∧ row.1 ≤ streamEnd through r.oplogCursors := (mem_oplogRows.mp h).2

theorem Windowed.lt_tail_of_mem_pending (h : Windowed r) (hrow : row ∈ pending through r) :
    row.1 < r.oplogCursors.tail :=
  (h.bounds _ _ (OrdMap.mem_entries_iff.mp (mem_oplogRows.mp hrow).1)).2

/-- A dense window has rows to read from its neck on. -/
theorem Windowed.oplogRows_ne_nil (h : Windowed r)
    (hneck : r.oplogCursors.neck < r.oplogCursors.tail) (hstop : r.oplogCursors.neck ≤ stop) :
    r.oplogRows r.oplogCursors.neck stop ≠ [] := by
  obtain ⟨op, hop⟩ := h.dense _ le_rfl hneck
  have hmem : (r.oplogCursors.neck, op) ∈ r.oplogRows r.oplogCursors.neck stop :=
    mem_oplogRows.mpr ⟨OrdMap.mem_entries_iff.mpr hop, le_rfl, hstop⟩
  exact ne_nil_of_mem hmem

/-- Nothing is left to ship just when the window is empty. -/
theorem Windowed.pending_eq_nil_iff (h : Windowed r)
    (htarget : settledTarget through r.oplogCursors = none) :
    pending through r = [] ↔ r.oplogCursors.tail ≤ r.oplogCursors.neck := by
  constructor
  · intro hnil
    by_contra hlt
    have hlt := not_le.mp hlt
    exact h.oplogRows_ne_nil hlt (neck_le_streamEnd htarget hlt) hnil
  · intro hle
    refine eq_nil_iff_forall_not_mem.mpr fun row hrow => ?_
    have hlow := (bounds_of_mem_pending hrow).1
    exact absurd (h.lt_tail_of_mem_pending hrow) (not_lt.mpr (hle.trans hlow))

/-- Behind a row that reaches the target there is nothing left to ship. -/
theorem back_eq_nil_of_reached {front back : List (DeviceSeq × DeviceOp)}
    {last : DeviceSeq × DeviceOp} (hsplit : pending through r = front ++ back)
    (hlast : last ∈ front) (hreached : reached through last.1 = true) : back = [] := by
  cases through with
  | none => cases hreached
  | some target =>
    have htarget : target ≤ last.1 := by simpa [reached] using hreached
    refine eq_nil_iff_forall_not_mem.mpr fun row hrow => ?_
    have hsorted := oplogRows_sorted (r := r) r.oplogCursors.neck
      (streamEnd (some target) r.oplogCursors)
    change (pending (some target) r).Pairwise _ at hsorted
    rw [hsplit] at hsorted
    have hgt := (pairwise_append.mp hsorted).2.2 last hlast row hrow
    have hmem : row ∈ pending (some target) r := by
      rw [hsplit]
      exact mem_append_right _ hrow
    have hle := (bounds_of_mem_pending hmem).2.trans (min_le_left _ _)
    exact absurd (hgt.trans_le hle) (not_lt.mpr htarget)

end Rows

/-! ## What one request takes -/

/-- The rows have consecutive sequence numbers. -/
def Successive (rows : List (DeviceSeq × DeviceOp)) : Prop :=
  rows.IsChain fun a b => b.1.val = a.1.val + 1

/-- A group is the front of what was read. -/
theorem groupRows_isPrefix (cap : Nat) (last : DeviceSeq) (count : Nat)
    (rows : List (DeviceSeq × DeviceOp)) : groupRows cap last count rows <+: rows := by
  induction rows generalizing last count with
  | nil => exact prefix_rfl
  | cons row rest ih =>
    rw [groupRows]
    split
    · exact nil_prefix
    · exact cons_prefix_cons.mpr ⟨rfl, ih _ _⟩

theorem successive_groupRows (cap count : Nat) (head : DeviceSeq × DeviceOp)
    (rows : List (DeviceSeq × DeviceOp)) :
    Successive (head :: groupRows cap head.1 count rows) := by
  induction rows generalizing head count with
  | nil => exact isChain_singleton _
  | cons row rest ih =>
    rw [groupRows]
    split
    · exact isChain_singleton _
    next hnext => exact isChain_cons_cons.mpr ⟨not_not.mp (not_or.mp hnext).1, ih _ row⟩

/-- A successive group ends behind its head, unless it is the head alone. -/
theorem Successive.lt_last {head last : DeviceSeq × DeviceOp}
    {group : List (DeviceSeq × DeviceOp)} (h : Successive (head :: group))
    (hlast : (head :: group).getLast? = some last) : head.1 < last.1 ↔ group ≠ [] := by
  induction group generalizing head with
  | nil =>
    cases hlast
    simp
  | cons next group ih =>
    obtain ⟨hnext, hrest⟩ := isChain_cons_cons.mp h
    rw [getLast?_cons_cons] at hlast
    have hlt : head.1 < next.1 := Fin.lt_def.mpr (by omega)
    refine iff_of_true ?_ (cons_ne_nil _ _)
    by_cases hnil : group = []
    · subst hnil
      cases hlast
      exact hlt
    · exact hlt.trans ((ih hrest hlast).mpr hnil)

/-- What one request ships of a window that is not empty: the front of the pending rows. -/
theorem Windowed.shipped {r : SpaceRecords} (h : Windowed r)
    (htarget : settledTarget through r.oplogCursors = none)
    (hneck : r.oplogCursors.neck < r.oplogCursors.tail) (cap : U64) (probe : Bool) :
    ∃ head rest group more,
      r.oplogRows r.oplogCursors.neck (windowEnd through r.oplogCursors cap) = head :: rest ∧
      shippedRows probe cap head rest = head :: group ∧
      pending through r = (head :: group) ++ more ∧ Successive (head :: group) ∧
      (probe = true → group = []) := by
  have hstop : r.oplogCursors.neck ≤ windowEnd through r.oplogCursors cap := by
    rw [windowEnd_eq]
    refine le_min ?_ (neck_le_streamEnd htarget hneck)
    rw [Fin.le_def, U64.val_saturatingAdd]
    have := r.oplogCursors.neck.isLt
    omega
  have hfront : r.oplogRows r.oplogCursors.neck (windowEnd through r.oplogCursors cap) <+:
      pending through r := oplogRows_isPrefix (min_le_right _ _)
  obtain ⟨head, rest, hread⟩ := exists_cons_of_ne_nil (h.oplogRows_ne_nil hneck hstop)
  rw [hread] at hfront
  obtain ⟨group, hshipped, hgroup, hchain, hprobe⟩ : ∃ group,
      shippedRows probe cap head rest = head :: group ∧ group <+: rest ∧
        Successive (head :: group) ∧ (probe = true → group = []) := by
    cases probe with
    | true => exact ⟨[], rfl, nil_prefix, isChain_singleton _, fun _ => rfl⟩
    | false =>
      exact ⟨_, rfl, groupRows_isPrefix _ _ _ _, successive_groupRows _ _ _ _, fun h => by cases h⟩
  obtain ⟨more, hmore⟩ := (cons_prefix_cons.mpr ⟨rfl, hgroup⟩).trans hfront
  exact ⟨head, rest, group, more, hread, hshipped, hmore.symm, hchain, hprobe⟩

/-! ## Trimming -/

/-- The records after an acknowledgement through a row of the window. -/
def SpaceRecords.trimmed (r : SpaceRecords) (through : DeviceSeq) (checksum : DeviceChecksum) :
    SpaceRecords :=
  { r with
    checksum := some checksum
    oplog := r.oplog.retain fun seq _ => decide (through < seq)
    cursors := some ⟨max r.oplogCursors.head (advanced r through),
      max r.oplogCursors.neck (advanced r through), r.oplogCursors.tail⟩ }

section Trim

variable {r : SpaceRecords} {seq last : DeviceSeq}

theorem val_advanced (hlt : seq < r.oplogCursors.tail) : (advanced r seq).val = seq.val + 1 := by
  have hlt := Fin.lt_def.mp hlt
  have hbound := r.oplogCursors.tail.isLt
  have hsum : (U64.saturatingAdd seq 1).val = seq.val + 1 := by
    rw [U64.val_saturatingAdd]
    change min (seq.val + 1) (2 ^ 64 - 1) = seq.val + 1
    omega
  rw [advanced, min_eq_left (Fin.le_def.mpr (by omega)), hsum]

theorem neck_trimmed (hneck : r.oplogCursors.neck ≤ seq) (hlt : seq < r.oplogCursors.tail)
    (checksum : DeviceChecksum) :
    (r.trimmed seq checksum).oplogCursors.neck = advanced r seq := by
  have hneck := Fin.le_def.mp hneck
  refine max_eq_right (Fin.le_def.mpr ?_)
  rw [val_advanced hlt]
  omega

/-- `trim_oplog` through a row of the window. -/
theorem trimOplog_of_mem (hneck : r.oplogCursors.neck ≤ seq) (hlt : seq < r.oplogCursors.tail)
    (checksum : DeviceChecksum) : r.trimOplog seq checksum = .ok (r.trimmed seq checksum) := by
  have hmoves : max r.oplogCursors.neck (advanced r seq) ≠ r.oplogCursors.neck := by
    have hval := val_advanced hlt
    have hneck := Fin.le_def.mp hneck
    intro heq
    have := Fin.le_def.mp (max_eq_left_iff.mp heq)
    omega
  rw [SpaceRecords.trimOplog, if_neg fun h => absurd h.1 (not_lt.mpr hneck)]
  dsimp only
  rw [← advanced, if_pos (.inr hmoves)]
  rfl

theorem Windowed.trimmed (h : Windowed r) (hneck : r.oplogCursors.neck ≤ seq)
    (hlt : seq < r.oplogCursors.tail) (checksum : DeviceChecksum) :
    Windowed (r.trimmed seq checksum) :=
  h.step (@OplogStep.of_call _ _ (.trimOplog seq checksum) (trimOplog_of_mem hneck hlt checksum))

/-- Two acknowledgements are the later one. -/
theorem trimmed_trimmed (hle : seq ≤ last) (hlt : last < r.oplogCursors.tail)
    (first checksum : DeviceChecksum) :
    (r.trimmed seq first).trimmed last checksum = r.trimmed last checksum := by
  have hadvanced : advanced (r.trimmed seq first) last = advanced r last := rfl
  have hup : advanced r seq ≤ advanced r last := by
    rw [Fin.le_def, val_advanced (lt_of_le_of_lt hle hlt), val_advanced hlt]
    exact Nat.succ_le_succ (Fin.le_def.mp hle)
  have hlog : (r.trimmed seq first).oplog.retain (fun s _ => decide (last < s)) =
      r.oplog.retain fun s _ => decide (last < s) := by
    refine OrdMap.ext_get fun s => ?_
    rw [SpaceRecords.trimmed, OrdMap.get_retain, OrdMap.get_retain, OrdMap.get_retain]
    cases r.oplog.get s with
    | none => rfl
    | some op =>
      by_cases hs : last < s
      · simp [hs, lt_of_le_of_lt hle hs]
      · simp [hs]
  have hhead : max (r.trimmed seq first).oplogCursors.head (advanced r last) =
      max r.oplogCursors.head (advanced r last) := by
    change max (max _ (advanced r seq)) _ = _
    rw [max_assoc, max_eq_right hup]
  have hneck' : max (r.trimmed seq first).oplogCursors.neck (advanced r last) =
      max r.oplogCursors.neck (advanced r last) := by
    change max (max _ (advanced r seq)) _ = _
    rw [max_assoc, max_eq_right hup]
  rw [SpaceRecords.trimmed, hadvanced, hlog, hhead, hneck']
  rfl

variable {through : Option DeviceSeq}

/-- An acknowledgement through the last row of a front part leaves the other rows. -/
theorem pending_trimmed {front back : List (DeviceSeq × DeviceOp)} {row : DeviceSeq × DeviceOp}
    (hsplit : pending through r = front ++ back) (hlast : front.getLast? = some row)
    (hlt : row.1 < r.oplogCursors.tail) (checksum : DeviceChecksum) :
    pending through (r.trimmed row.1 checksum) = back := by
  have hmem : row ∈ pending through r := by
    rw [hsplit]
    exact mem_append_left _ (mem_of_getLast? hlast)
  obtain ⟨hneck, -⟩ := bounds_of_mem_pending hmem
  have hsorted := oplogRows_sorted (r := r) r.oplogCursors.neck (streamEnd through r.oplogCursors)
  change (pending through r).Pairwise _ at hsorted
  rw [hsplit] at hsorted
  rw [← filter_gt_append hsorted hlast, ← hsplit, pending, pending, neck_trimmed hneck hlt,
    SpaceRecords.oplogRows, SpaceRecords.oplogRows, filter_filter]
  change ((r.oplog.entries.filter _).filter _) = _
  rw [filter_filter]
  refine filter_congr fun other _ => ?_
  have hval := val_advanced (r := r) hlt
  have hneck := Fin.le_def.mp hneck
  rw [Bool.eq_iff_iff]
  simp only [Bool.and_eq_true, decide_eq_true_eq]
  constructor
  · rintro ⟨⟨-, hend⟩, hgt⟩
    exact ⟨hgt, Fin.le_def.mpr (by have := Fin.lt_def.mp hgt; omega), hend⟩
  · rintro ⟨hgt, -, hend⟩
    exact ⟨⟨Fin.le_def.mpr (by have := Fin.lt_def.mp hgt; omega), hend⟩, hgt⟩

/-- A target behind the acknowledged row stays inside the window. -/
theorem settledTarget_trimmed (htarget : settledTarget through r.oplogCursors = none)
    (hneck : r.oplogCursors.neck ≤ seq) (hlt : seq < r.oplogCursors.tail)
    (hbehind : reached through seq = false) (checksum : DeviceChecksum) :
    settledTarget through (r.trimmed seq checksum).oplogCursors = none := by
  cases through with
  | none => rfl
  | some target =>
    have hgt : seq < target := by simpa [reached] using hbehind
    have hle : advanced r seq ≤ target := by
      rw [Fin.le_def, val_advanced hlt]
      exact Fin.lt_def.mp hgt
    obtain ⟨hhead, -, htail⟩ := settledTarget_eq_none_iff.mp htarget
    refine settledTarget_eq_none_iff.mpr ⟨max_le hhead hle, ?_, htail⟩
    rw [neck_trimmed hneck hlt]
    exact hle

end Trim

end Homebase.Client
