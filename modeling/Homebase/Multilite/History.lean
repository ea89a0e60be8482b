import Homebase.Core.Messages
import Homebase.Foundation.Agree

set_option autoImplicit false

/-!
# Multilite: the canonical commit log (`commit/history.rs`, `commit/committer.rs`)

Every accepted proposal leaves one row: what identifies it, the sequence number of its
group and the regions it wrote.  Later proposals are validated against these rows, and
a proposal that is submitted again finds its receipt in them.

Rows are pruned after every group, up to a frontier that the registered pins and the
current sequence determine.
-/

namespace Homebase.Multilite

open Foundation Homebase.Core

/-- `CommitSeq`. -/
abbrev CommitSeq : Type := U64

/-- `ProposalId`. -/
abbrev ProposalId : Type := ByteArr 16

/-! ## Write regions -/

/-- `WriteRegion`. -/
inductive WriteRegion where
  | point (key : Key)
  | range (range : Range)
  deriving DecidableEq

namespace WriteRegion

/-- `WriteRegion` in the order of its variants, which is what `derive(Ord)` gives. -/
def toSum : WriteRegion → Lex (Key ⊕ Range)
  | point key => toLex (.inl key)
  | .range region => toLex (.inr region)

theorem toSum_injective : Function.Injective toSum := by
  intro a b h
  cases a <;> cases b <;> simp_all [toSum]

instance : LinearOrder WriteRegion := LinearOrder.lift' toSum toSum_injective

/-- `WriteRegion::overlaps_prefix`. -/
def overlapsPrefix : WriteRegion → Key → Bool
  | point key, assertPrefix => key.startsWith assertPrefix
  | range .full, _ => true
  | range (.prefixed written), assertPrefix =>
      written.startsWith assertPrefix || assertPrefix.startsWith written

/-- The region a mutation writes. -/
def ofMutation : Mutation Bytes → WriteRegion
  | .set key _ => point key
  | .delete key => point key
  | .deleteRange region => .range region

end WriteRegion

/-- `writes_from_mutations`. -/
def writesFromMutations (mutations : List (Mutation Bytes)) : List WriteRegion :=
  OrdSet.toList (OrdSet.ofList (mutations.map WriteRegion.ofMutation))

/-! ## Rows -/

/-- One row of the commit log. -/
structure CommitRow where
  proposalId : ProposalId
  commitSeq : CommitSeq
  proposalHash : ByteArr 32
  submitted : Option DeviceSeq
  writes : List WriteRegion
  deriving DecidableEq

/-- `PreparedRecord`. -/
structure PreparedRecord where
  proposalId : ProposalId
  proposalHash : ByteArr 32
  submitted : Option DeviceSeq
  writes : List WriteRegion
  deriving DecidableEq

/-- The row of a prepared record. -/
def PreparedRecord.row (record : PreparedRecord) (commitSeq : CommitSeq) : CommitRow :=
  ⟨record.proposalId, commitSeq, record.proposalHash, record.submitted, record.writes⟩

/-- The commit log and the current sequence.  Rows stand in the order in which they were
inserted, so by sequence. -/
structure History where
  current : CommitSeq
  rows : List CommitRow
  deriving DecidableEq

/-- Why a group cannot be recorded. -/
inductive RecordFault where
  /-- "cannot record an empty canonical commit group" -/
  | emptyGroup
  /-- "commit group contains a duplicate proposal id" -/
  | duplicateId (id : ProposalId)
  /-- "commit proposal id is not a UUID v4" -/
  | notUuid (id : ProposalId)
  /-- "canonical commit writes are not sorted and unique" -/
  | unsortedWrites
  /-- "local commit sequence is exhausted" -/
  | exhausted
  /-- The `UNIQUE (proposal_id)` of the table. -/
  | committedId (id : ProposalId)
  deriving DecidableEq

/-- `valid_uuid`: version 4, variant RFC 4122. -/
def validUuid (id : ProposalId) : Bool :=
  match id.bytes[6]?, id.bytes[8]? with
  | some version, some variant => decide (version.val / 16 = 4) && decide (variant.val / 64 = 2)
  | _, _ => false

namespace History

/-- A commit log without rows. -/
def empty : History := ⟨0, []⟩

/-- The checks of `record_group_inner` on its records, with the ids it has seen. -/
def checkRecords : List ProposalId → List PreparedRecord → Except RecordFault Unit
  | _, [] => .ok ()
  | seen, record :: rest =>
      if record.proposalId ∈ seen then .error (.duplicateId record.proposalId)
      else if validUuid record.proposalId = false then .error (.notUuid record.proposalId)
      else if ¬ record.writes.Pairwise (· < ·) then .error .unsortedWrites
      else checkRecords (record.proposalId :: seen) rest

/-- The insertions of `record_group_inner`. -/
def insertRows (commitSeq : CommitSeq) :
    List CommitRow → List PreparedRecord → Except RecordFault (List CommitRow)
  | rows, [] => .ok rows
  | rows, record :: rest =>
      if rows.any fun row => decide (row.proposalId = record.proposalId) then
        .error (.committedId record.proposalId)
      else insertRows commitSeq (rows ++ [record.row commitSeq]) rest

/-- `record_group`. -/
def recordGroup (h : History) (records : List PreparedRecord) :
    Except RecordFault (CommitSeq × History) := do
  if records = [] then .error .emptyGroup
  else
    checkRecords [] records
    match U64.checkedAdd h.current 1 with
    | none => .error .exhausted
    | some next =>
        let rows ← insertRows next h.rows records
        .ok (next, ⟨next, rows⟩)

/-- `history_after`. -/
def historyAfter (h : History) (commitSeq : CommitSeq) : List CommitRow :=
  h.rows.filter fun row => decide (commitSeq < row.commitSeq)

/-- `committed`. -/
def committed (h : History) (id : ProposalId) : Option CommitRow :=
  h.rows.find? fun row => decide (row.proposalId = id)

/-- `prune` of `history.rs`. -/
def prune (h : History) (through : CommitSeq) : History :=
  { h with rows := h.rows.filter fun row => decide (through < row.commitSeq) }

/-! ### What recording and pruning do -/

variable {records : List PreparedRecord}

theorem checkRecords_eq_ok_iff {seen : List ProposalId} : checkRecords seen records = .ok () ↔
    (records.map PreparedRecord.proposalId).Nodup ∧ ∀ record ∈ records,
      record.proposalId ∉ seen ∧ validUuid record.proposalId = true ∧
        record.writes.Pairwise (· < ·) := by
  induction records generalizing seen with
  | nil => simp [checkRecords]
  | cons record rest ih =>
    rw [checkRecords, List.map_cons, List.nodup_cons, List.forall_mem_cons]
    split_ifs with hseen huuid hsorted
    · simp [hseen]
    · simp [huuid]
    · rw [ih]
      simp only [List.mem_cons, not_or, List.mem_map, not_exists]
      grind
    · simp [hsorted]

theorem insertRows_eq_ok_iff {commitSeq : CommitSeq} {rows out : List CommitRow} :
    insertRows commitSeq rows records = .ok out ↔
      out = rows ++ records.map (·.row commitSeq) ∧
      (records.map PreparedRecord.proposalId).Nodup ∧
      ∀ record ∈ records, ∀ row ∈ rows, row.proposalId ≠ record.proposalId := by
  induction records generalizing rows with
  | nil => simp [insertRows, eq_comm]
  | cons record rest ih =>
    rw [insertRows, List.map_cons, List.map_cons, List.nodup_cons, List.forall_mem_cons]
    split
    next hany =>
      obtain ⟨row, hrow, heq⟩ := List.any_eq_true.mp hany
      exact ⟨nofun, fun h => absurd (of_decide_eq_true heq) (h.2.2.1 row hrow)⟩
    next hany =>
      rw [ih]
      simp only [Bool.not_eq_true, List.any_eq_false, decide_eq_true_eq] at hany
      simp only [List.append_assoc, List.singleton_append, List.mem_append, List.mem_singleton,
        List.mem_map, not_exists]
      have hid : (record.row commitSeq).proposalId = record.proposalId := rfl
      grind

variable {h : History}

/-- Records that the commit log can take as one group. -/
structure Takes (h : History) (records : List PreparedRecord) : Prop where
  nodup : (records.map PreparedRecord.proposalId).Nodup
  uuid : ∀ record ∈ records, validUuid record.proposalId = true
  sorted : ∀ record ∈ records, record.writes.Pairwise (· < ·)
  fresh : ∀ record ∈ records, ∀ row ∈ h.rows, row.proposalId ≠ record.proposalId

/-- A recorded group: one row for each record, all under the next sequence. -/
theorem recordGroup_eq_ok_iff {h' : History} {next : CommitSeq} :
    h.recordGroup records = .ok (next, h') ↔ records ≠ [] ∧ h.Takes records ∧
      next.val = h.current.val + 1 ∧ h' = ⟨next, h.rows ++ records.map (·.row next)⟩ := by
  rw [recordGroup]
  constructor
  · intro hrec
    split at hrec
    · cases hrec
    next hnil =>
      obtain ⟨⟨⟩, hcheck, hrec⟩ := of_bind hrec
      split at hrec
      · cases hrec
      next hadd =>
        obtain ⟨rows, hrows, hrec⟩ := of_bind hrec
        cases hrec
        obtain ⟨hnodup, hall⟩ := checkRecords_eq_ok_iff.mp hcheck
        obtain ⟨rfl, -, hfresh⟩ := insertRows_eq_ok_iff.mp hrows
        exact ⟨hnil, ⟨hnodup, fun record hr => (hall record hr).2.1,
          fun record hr => (hall record hr).2.2, hfresh⟩, U64.checkedAdd_eq_some hadd, rfl⟩
  · rintro ⟨hnil, htakes, hnext, rfl⟩
    have hcheck : checkRecords [] records = .ok () := checkRecords_eq_ok_iff.mpr ⟨htakes.nodup,
      fun record hr => ⟨List.not_mem_nil, htakes.uuid record hr, htakes.sorted record hr⟩⟩
    have hadd : U64.checkedAdd h.current 1 = some next := by
      rw [U64.checkedAdd_of_lt (hnext ▸ next.isLt)]
      exact congrArg some (Fin.ext hnext.symm)
    have hrows : insertRows next h.rows records = .ok (h.rows ++ records.map (·.row next)) :=
      insertRows_eq_ok_iff.mpr ⟨rfl, htakes.nodup, htakes.fresh⟩
    rw [if_neg hnil, hcheck, ok_bind, hadd]
    dsimp only
    rw [hrows, ok_bind]

variable {row : CommitRow}

theorem mem_rows_prune {through : CommitSeq} :
    row ∈ (h.prune through).rows ↔ row ∈ h.rows ∧ through < row.commitSeq := by
  simp [prune]

/-- What a receipt is read from. -/
theorem committed_eq_some {id : ProposalId} (hnodup : (h.rows.map CommitRow.proposalId).Nodup)
    (hrow : row ∈ h.rows) (hid : row.proposalId = id) : h.committed id = some row := by
  cases hfound : h.committed id with
  | none =>
    have hnone := List.find?_eq_none.mp hfound row hrow
    simp [hid] at hnone
  | some other =>
    have hother := List.mem_of_find?_eq_some hfound
    have heq : other.proposalId = id := by simpa using List.find?_some hfound
    rw [List.inj_on_of_nodup_map hnodup hother hrow (heq.trans hid.symm)]

end History

/-! ## Pins -/

/-- `HistoryPins`: how many pins hold a sequence. -/
abbrev HistoryPins : Type := OrdMap CommitSeq Nat

namespace HistoryPins

/-- `HistoryPins::register`. -/
def register (pins : HistoryPins) (commitSeq : CommitSeq) : HistoryPins :=
  OrdMap.insert pins commitSeq ((OrdMap.get pins commitSeq).getD 0 + 1)

/-- `HistoryPins::oldest`. -/
def oldest (pins : HistoryPins) : Option CommitSeq := pins.entries.head?.map Prod.fst

/-- The drop of a `HistoryPin`; only a registered pin is dropped. -/
def release (pins : HistoryPins) (commitSeq : CommitSeq) : HistoryPins :=
  match OrdMap.get pins commitSeq with
  | none => pins
  | some count =>
      if count - 1 = 0 then OrdMap.erase pins commitSeq
      else OrdMap.insert pins commitSeq (count - 1)

/-- The frontier of `CommitHistory::prune`. -/
def frontier (pins : HistoryPins) (current : CommitSeq) : CommitSeq :=
  let beforeCurrent := U64.saturatingSub current 1
  match pins.oldest with
  | none => beforeCurrent
  | some oldest => min oldest beforeCurrent

end HistoryPins

namespace HistoryPins

/-- A pin is alive. -/
def Alive (pins : HistoryPins) (commitSeq : CommitSeq) : Prop := (pins.get commitSeq).isSome

variable {pins : HistoryPins} {commitSeq p : CommitSeq}

theorem alive_register (h : (pins.register commitSeq).Alive p) : p = commitSeq ∨ pins.Alive p := by
  by_cases heq : p = commitSeq
  · exact .inl heq
  · refine .inr ?_
    rwa [Alive, register, OrdMap.get_insert_of_ne _ _ heq] at h

theorem alive_release (h : (pins.release commitSeq).Alive p) : pins.Alive p := by
  rw [release] at h
  split at h
  · exact h
  next count hcount =>
    by_cases heq : p = commitSeq
    · rw [Alive, heq, hcount]
      rfl
    · split at h
      · rwa [Alive, OrdMap.get_erase, if_neg heq] at h
      · rwa [Alive, OrdMap.get_insert_of_ne _ _ heq] at h

theorem oldest_le (h : pins.Alive p) : ∃ oldest, pins.oldest = some oldest ∧ oldest ≤ p := by
  obtain ⟨count, hcount⟩ := Option.isSome_iff_exists.mp h
  have hmem := OrdMap.mem_entries_iff.mpr hcount
  have hsorted := pins.sorted
  rw [oldest]
  generalize pins.entries = entries at hmem hsorted
  cases entries with
  | nil => cases hmem
  | cons first rest =>
    refine ⟨first.1, rfl, ?_⟩
    rcases List.mem_cons.mp hmem with rfl | hmem
    · exact le_refl _
    · exact le_of_lt ((List.pairwise_cons.mp hsorted).1 _ hmem)

/-- Nothing newer than a live pin is pruned. -/
theorem frontier_le (h : pins.Alive p) (current : CommitSeq) : pins.frontier current ≤ p := by
  obtain ⟨oldest, holdest, hle⟩ := oldest_le h
  simp only [frontier, holdest]
  exact le_trans (min_le_left _ _) hle

end HistoryPins

/-- `CommitHistory::prune`. -/
def History.pruneFor (h : History) (pins : HistoryPins) : History :=
  h.prune (pins.frontier h.current)

end Homebase.Multilite
