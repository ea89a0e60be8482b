import Homebase.Properties.Journal
import Homebase.Refine.Serial

set_option autoImplicit false

/-!
# Properties: one group or one by one

A commit group gives its proposals the answers they would get in groups of their own, and
leaves the same database, as long as the base of every transaction is pinned.

Without a pin the commit log forgets: alone in its group, a transaction is checked only
against the rows that the prune after every group left.
-/

namespace Homebase.Multilite

open Foundation Homebase.Core List

/-! ## What is compared -/

/-- The same disposition and submission, or the same class of error. -/
def SameAnswer : Except CommitError CommitReceipt → Except CommitError CommitReceipt → Prop
  | .ok r, .ok r' => r.disposition = r'.disposition ∧ r.submitted = r'.submitted
  | .error e, .error e' => SameClass e e'
  | .ok _, .error _ => False
  | .error _, .ok _ => False

/-- What a row records, without its sequence. -/
def CommitRow.record (row : CommitRow) : PreparedRecord :=
  ⟨row.proposalId, row.proposalHash, row.submitted, row.writes⟩

/-- The rows that are newer than a sequence. -/
def History.newer (h : History) (p : CommitSeq) : List CommitRow :=
  h.rows.filter fun row => decide (p < row.commitSeq)

/-- The proposals in groups of their own. -/
def oneByOne {Op : Type} (group : List (Queued Op)) : List (CommitterEvent Op) :=
  group.map fun queued => .commitGroup [queued]

/-- The answers to the proposals in groups of their own. -/
def oneByOneResults {Data Op : Type} [DecidableEq Op] (setup : Setup Data Op) :
    Committer Data Op → List (Queued Op) → List (Except CommitError CommitReceipt)
  | _, [] => []
  | s, queued :: rest => groupResults setup s [queued] ++
      oneByOneResults setup (s.step setup (.commitGroup [queued])) rest

section Conflicts

variable {Data Op : Type}

/-- No conflict: neither with a newer row nor with the group so far. -/
theorem checkConflicts_ok_iff {c : Canonical Data Op} {body : TransactionProposal Op}
    {accepted : List WriteRegion} :
    checkConflicts c body accepted = .ok () ↔
      (∀ row ∈ c.history.newer body.snapshot.commitSeq,
        body.footprint.conflictsWithWrites body.isolation row.writes = false) ∧
      body.footprint.conflictsWithWrites body.isolation accepted = false := by
  rw [checkConflicts]
  split
  next row hfound =>
    have hmem := mem_of_find?_eq_some hfound
    have hconflict := find?_some hfound
    constructor
    · intro h
      cases h
    · rintro ⟨hnone, -⟩
      rw [hnone row hmem] at hconflict
      cases hconflict
  next hnone =>
    have hrows : ∀ row ∈ c.history.newer body.snapshot.commitSeq,
        body.footprint.conflictsWithWrites body.isolation row.writes = false := by
      intro row hmem
      simpa using find?_eq_none.mp hnone row hmem
    split
    next hconflict =>
      constructor
      · intro h
        cases h
      · rintro ⟨-, hfree⟩
        rw [hfree] at hconflict
        cases hconflict
    next hfree => exact ⟨fun _ => ⟨hrows, by simpa using hfree⟩, fun _ => rfl⟩

end Conflicts

/-! ## Following both -/

section Follow

variable {Data Op : Type} [DecidableEq Op] {setup : Setup Data Op} {pins : HistoryPins}
  {c₀ c : Canonical Data Op} {g g' : GroupState Data Op}

/-- A group that started at `c₀` is at `g`; the same proposals one by one left `c`. -/
structure Follows (pins : HistoryPins) (c₀ : Canonical Data Op) (g : GroupState Data Op)
    (c : Canonical Data Op) : Prop where
  same : c = g.canonical.withHistory c.history
  history : g.canonical.history = c₀.history
  current : c.history.current.val = c₀.history.current.val + g.prepared.length
  /-- One by one, the prepared members have rows of their own. -/
  rows : ∃ rows : List CommitRow, rows.map CommitRow.record = g.prepared ∧
    (∀ row ∈ rows, c₀.history.current < row.commitSeq) ∧
    ∀ p, pins.Alive p → p ≤ c₀.history.current →
      c.history.newer p = c₀.history.newer p ++ rows
  ids : ∀ row ∈ c.history.rows, row ∈ c₀.history.rows ∨
    row.proposalId ∈ g.prepared.map PreparedRecord.proposalId
  accepted : ∀ w, w ∈ g.acceptedWrites.toList ↔ ∃ record ∈ g.prepared, w ∈ record.writes

omit [DecidableEq Op] in
theorem Follows.start (c : Canonical Data Op) : Follows pins c (GroupState.start c) c where
  same := rfl
  history := rfl
  current := rfl
  rows := ⟨[], rfl, by simp, by simp⟩
  ids := fun row hrow => .inl hrow
  accepted := by
    intro w
    simp [GroupState.start, OrdSet.toList, OrdMap.empty]

omit [DecidableEq Op] in
/-- A transaction whose base is pinned has the same conflicts in both. -/
theorem Follows.conflicts_iff {body : TransactionProposal Op} (h : Follows pins c₀ g c)
    (hbase : body.snapshot.commitSeq ≤ c₀.history.current)
    (halive : pins.Alive body.snapshot.commitSeq) :
    checkConflicts g.canonical body g.acceptedWrites.toList = .ok () ↔
      checkConflicts c body [] = .ok () := by
  obtain ⟨rows, hrecords, -, hnewer⟩ := h.rows
  rw [checkConflicts_ok_iff, checkConflicts_ok_iff, hnewer _ halive hbase, h.history,
    forall_mem_append, and_assoc]
  refine and_congr_right fun _ => ?_
  have hnil : body.footprint.conflictsWithWrites body.isolation [] = false := by
    simp [ConflictFootprint.conflictsWithWrites]
  have hgroup : body.footprint.conflictsWithWrites body.isolation g.acceptedWrites.toList = true ↔
      ∃ record ∈ g.prepared,
        body.footprint.conflictsWithWrites body.isolation record.writes = true := by
    simp only [ConflictFootprint.conflictsWithWrites_iff, h.accepted]
    constructor
    · rintro ⟨asserted, hasserted, written, ⟨record, hrecord, hwritten⟩, hoverlaps⟩
      exact ⟨record, hrecord, asserted, hasserted, written, hwritten, hoverlaps⟩
    · rintro ⟨record, hrecord, asserted, hasserted, written, hwritten, hoverlaps⟩
      exact ⟨asserted, hasserted, written, ⟨record, hrecord, hwritten⟩, hoverlaps⟩
  rw [← Bool.not_eq_true, hgroup, ← hrecords]
  simp [hnil, CommitRow.record]

/-- What a proposal must satisfy: it is new, and the base of a transaction is pinned. -/
structure Based (pins : HistoryPins) (c₀ : Canonical Data Op) (queued : Queued Op) : Prop where
  new : c₀.history.committed queued.proposal.id = none
  base : ∀ body, queued.proposal.body = .transaction body →
    body.snapshot.commitSeq ≤ c₀.history.current ∧ pins.Alive body.snapshot.commitSeq

variable {id : ProposalId}

omit [DecidableEq Op] in
theorem Follows.committed_none (h : Follows pins c₀ g c) (hnew : c₀.history.committed id = none)
    (hfresh : id ∉ g.prepared.map PreparedRecord.proposalId) : c.history.committed id = none := by
  refine find?_eq_none.mpr fun row hrow => ?_
  rw [decide_eq_true_eq]
  rintro rfl
  rcases h.ids row hrow with hold | hprepared
  · have := find?_eq_none.mp hnew row hold
    simp at this
  · exact hfresh hprepared

omit [DecidableEq Op] in
theorem committedReceipt_of_none {proposal : CommitProposal Op}
    (h : c.history.committed proposal.id = none) :
    committedReceipt setup c proposal = .ok none := by
  rw [committedReceipt, h]

variable {queued : Queued Op}

/-- Both prepare a member alike. -/
theorem Follows.member (h : Follows pins c₀ g c) (hpinned : Based pins c₀ queued)
    (hfresh : queued.proposal.id ∉ g.prepared.map PreparedRecord.proposalId) :
    (∃ commit c₁, prepareMember setup g.canonical queued g.acceptedWrites.toList =
        .ok (.prepared commit c₁) ∧
      prepareMember setup c queued [] = .ok (.prepared commit (c₁.withHistory c.history))) ∨
    ∃ e e', prepareMember setup g.canonical queued g.acceptedWrites.toList = .error e ∧
      prepareMember setup c queued [] = .error e' ∧ SameClass e e' := by
  rw [prepareMember, prepareMember]
  cases queued.fault with
  | some e => exact .inr ⟨e, e, rfl, rfl, .inl rfl⟩
  | none =>
    have hgroup : committedReceipt setup g.canonical queued.proposal = .ok none :=
      committedReceipt_of_none (by rw [h.history]; exact hpinned.new)
    have halone : committedReceipt setup c queued.proposal = .ok none :=
      committedReceipt_of_none (h.committed_none hpinned.new hfresh)
    simp only [prepareCommitProposal, hgroup, halone, ok_bind]
    have hoteq : c.history.current.val = c₀.history.current.val + g.prepared.length := h.current
    have houtcome : SameOutcome c.history
        (prepareBody setup g.canonical queued.proposal g.acceptedWrites.toList queued.nonces)
        (prepareBody setup (g.canonical.withHistory c.history) queued.proposal [] queued.nonces) := by
      refine prepareBody_sameOutcome _ _ fun body hbody => ?_
      obtain ⟨hbase, halive⟩ := hpinned.base body hbody
      refine ⟨by rw [h.history]; exact hbase, ?_, ?_⟩
      · rw [Fin.le_def] at hbase ⊢
        omega
      · rw [← h.same]
        exact h.conflicts_iff hbase halive
    rw [← h.same] at houtcome
    generalize prepareBody setup g.canonical queued.proposal g.acceptedWrites.toList
      queued.nonces = grouped at houtcome ⊢
    generalize prepareBody setup c queued.proposal [] queued.nonces = alone at houtcome ⊢
    cases houtcome with
    | ok commit c₁ => exact .inl ⟨commit, c₁, rfl, rfl⟩
    | error hclass => exact .inr ⟨_, _, rfl, rfl, hclass⟩

/-! ## One proposal alone -/

variable {slot : GroupSlot}

theorem commitAlone_skipped
    (hmember : groupMember setup (GroupState.start c) queued =
      .ok { GroupState.start c with slots := [slot] }) :
    commitProposalGroup setup c pins [queued] =
      .ok (c.withHistory (c.history.pruneFor pins), [slot.result c.history.current]) := by
  simp only [commitProposalGroup, foldlM_cons, foldlM_nil, hmember, ok_bind]
  rfl

variable {h : History} {next : CommitSeq}

omit [DecidableEq Op] in
theorem recordGroup_single {record : PreparedRecord} (huuid : validUuid record.proposalId = true)
    (hsorted : record.writes.Pairwise (· < ·)) (hnext : next.val = h.current.val + 1)
    (hfree : h.committed record.proposalId = none) :
    h.recordGroup [record] = .ok (next, ⟨next, h.rows ++ [record.row next]⟩) := by
  have hfresh : ∀ row ∈ h.rows, row.proposalId ≠ record.proposalId := by
    simpa using find?_eq_none.mp hfree
  refine History.recordGroup_eq_ok_iff.mpr ⟨by simp, ?_, hnext, rfl⟩
  exact ⟨by simp, by simpa, by simpa, by simpa⟩

variable {commit : PreparedRecord} {c₁ : Canonical Data Op}

theorem commitAlone_prepared {encoded : Bytes}
    (hencoded : setup.logical.encodeProposal queued.proposal = .ok encoded)
    (hmember : prepareMember setup c queued [] = .ok (.prepared commit c₁))
    (hrecord : c.history.recordGroup [commit] =
      .ok (next, ⟨next, c.history.rows ++ [commit.row next]⟩)) :
    commitProposalGroup setup c pins [queued] =
      .ok (c₁.withHistory (History.pruneFor ⟨next, c.history.rows ++ [commit.row next]⟩ pins),
        [.ok ⟨next, .applied, commit.submitted⟩]) := by
  obtain ⟨-, hbody⟩ := prepareMember_prepared hmember
  have hhistory : c₁.history = c.history := (prepareBody_ok hbody).1
  have hstart : (GroupState.start c).acceptedWrites.toList = [] := rfl
  have hgroup : groupMember setup (GroupState.start c) queued = .ok {
      canonical := c₁
      acceptedWrites := (GroupState.start c).acceptedWrites.extend commit.writes
      prepared := [commit]
      slots := [.prepared commit.submitted]
      seen := (GroupState.start c).seen.insert queued.proposal.id
        ⟨encoded, none, commit.submitted⟩ } := by
    rw [groupMember, hencoded]
    dsimp only
    rw [show (GroupState.start c).seen.get queued.proposal.id = none from rfl, hstart]
    dsimp only
    rw [show (GroupState.start c).canonical = c from rfl, hmember]
    rfl
  simp only [commitProposalGroup, foldlM_cons, foldlM_nil, hgroup, ok_bind]
  change (finalizeGroup c₁.history [commit] >>= _) = _
  rw [finalizeGroup, if_neg (by simp), hhistory, hrecord]
  rfl

/-! ## Pruning between groups -/

theorem newer_pruneFor {p : CommitSeq} (halive : pins.Alive p) :
    (h.pruneFor pins).newer p = h.newer p := by
  rw [History.newer, History.newer, History.pruneFor, History.prune, filter_filter]
  refine filter_congr fun row _ => ?_
  have hle := HistoryPins.frontier_le halive h.current
  by_cases hlt : p < row.commitSeq
  · simp [hlt, lt_of_le_of_lt hle hlt]
  · simp [hlt]

omit [DecidableEq Op] in
theorem Follows.prune (h : Follows pins c₀ g c) :
    Follows pins c₀ g (c.withHistory (c.history.pruneFor pins)) where
  same := by
    rw [h.same]
    rfl
  history := h.history
  current := h.current
  rows := by
    obtain ⟨rows, hrecords, hafter, hnewer⟩ := h.rows
    refine ⟨rows, hrecords, hafter, fun p halive hp => ?_⟩
    rw [← hnewer p halive hp]
    exact newer_pruneFor halive
  ids := fun row hrow => h.ids row (History.mem_rows_prune.mp hrow).1
  accepted := h.accepted

variable {slots : List GroupSlot}

omit [DecidableEq Op] in
/-- A prepared member has its row in the next sequence. -/
theorem Follows.record {seen : OrdMap ProposalId SeenGroupProposal} (h : Follows pins c₀ g c)
    (hhistory : c₁.history = g.canonical.history) (hnext : next.val = c.history.current.val + 1) :
    Follows pins c₀
      { canonical := c₁
        acceptedWrites := g.acceptedWrites.extend commit.writes
        prepared := g.prepared ++ [commit]
        slots := slots
        seen := seen }
      (c₁.withHistory ⟨next, c.history.rows ++ [commit.row next]⟩) where
  same := rfl
  history := hhistory.trans h.history
  current := by
    have := h.current
    simp only [Canonical.withHistory, length_append, length_singleton]
    omega
  rows := by
    obtain ⟨rows, hrecords, hafter, hnewer⟩ := h.rows
    have hlt : c₀.history.current < next := by
      rw [Fin.lt_def, hnext, h.current]
      omega
    refine ⟨rows ++ [commit.row next], ?_, ?_, fun p halive hp => ?_⟩
    · rw [map_append, hrecords]
      rfl
    · intro row hrow
      rcases mem_append.mp hrow with hrow | hrow
      · exact hafter row hrow
      · rw [mem_singleton.mp hrow]
        exact hlt
    · have hkept : p < (commit.row next).commitSeq := lt_of_le_of_lt hp hlt
      rw [← append_assoc, ← hnewer p halive hp]
      simp only [History.newer, Canonical.withHistory, filter_append]
      rw [filter_cons_of_pos (by simpa using hkept), filter_nil]
  ids := by
    intro row hrow
    simp only [Canonical.withHistory, mem_append, mem_singleton] at hrow
    rw [map_append, mem_append]
    rcases hrow with hrow | rfl
    · rcases h.ids row hrow with hold | hprepared
      · exact .inl hold
      · exact .inr (.inl hprepared)
    · exact .inr (.inr (by simp [PreparedRecord.row]))
  accepted := by
    intro w
    rw [OrdSet.mem_toList_extend, h.accepted]
    simp [or_and_right, exists_or]

/-! ## One member in both -/

omit [DecidableEq Op] in
theorem Follows.skip (h : Follows pins c₀ g c) : Follows pins c₀ { g with slots := slots } c :=
  ⟨h.same, h.history, h.current, h.rows, h.ids, h.accepted⟩

theorem Follows.step (h : Follows pins c₀ g c) (hbased : Based pins c₀ queued)
    (hfresh : queued.proposal.id ∉ g.prepared.map PreparedRecord.proposalId)
    (hseen : g.seen.get queued.proposal.id = none) (hroom : c.history.current.val + 1 < 2 ^ 64)
    (huuid : ∀ record ∈ g'.prepared, validUuid record.proposalId = true)
    (hmember : groupMember setup g queued = .ok g') :
    ∃ slot c' result, g'.slots = g.slots ++ [slot] ∧
      commitProposalGroup setup c pins [queued] = .ok (c', [result]) ∧
      Follows pins c₀ g' c' ∧ ∀ commitSeq, SameAnswer (slot.result commitSeq) result := by
  cases hencoded : setup.logical.encodeProposal queued.proposal with
  | error e =>
    rw [groupMember, hencoded] at hmember
    cases hmember
    have halone : groupMember setup (GroupState.start c) queued =
        .ok { GroupState.start c with slots := [.complete (.error (.logical e))] } := by
      rw [groupMember, hencoded]
      rfl
    exact ⟨.complete (.error (.logical e)), _, _, rfl, commitAlone_skipped halone,
      h.prune.skip, fun _ => .inl rfl⟩
  | ok encoded =>
    rw [groupMember, hencoded] at hmember
    simp only [hseen] at hmember
    rcases @Follows.member Data Op _ setup pins c₀ c g queued h hbased hfresh with
      ⟨commit, c₁, hgrouped, halone⟩ | ⟨e, e', hgrouped, halone, hclass⟩
    · rw [hgrouped] at hmember
      cases hmember
      obtain ⟨-, hbody⟩ := prepareMember_prepared hgrouped
      obtain ⟨hhistory, hsorted, -, -, hid, -⟩ := prepareBody_ok hbody
      have hrecord := @recordGroup_single c.history ⟨_, hroom⟩ commit (huuid commit (by simp))
        hsorted rfl
        (by rw [hid]; exact h.committed_none hbased.new hfresh)
      exact ⟨.prepared commit.submitted, _, _, rfl, commitAlone_prepared hencoded halone hrecord,
        (h.record hhistory rfl).prune, fun _ => ⟨rfl, rfl⟩⟩
    · rw [hgrouped, GroupState.settle] at hmember
      split at hmember
      · cases hmember
      next hpanic =>
        cases hmember
        have hskip : groupMember setup (GroupState.start c) queued =
            .ok { GroupState.start c with slots := [.complete (.error e')] } := by
          rw [groupMember, hencoded]
          dsimp only
          rw [show (GroupState.start c).seen.get queued.proposal.id = none from rfl]
          dsimp only
          rw [show (GroupState.start c).acceptedWrites.toList = [] from rfl,
            show (GroupState.start c).canonical = c from rfl, halone, GroupState.settle,
            if_neg (by rw [← hclass.isPanic_eq]; exact hpanic)]
          rfl
        exact ⟨.complete (.error e), _, _, rfl, commitAlone_skipped hskip, h.prune.skip,
          fun _ => hclass⟩

/-! ## All members in both -/

/-- Only the id of a member is added to what its group has seen and prepared. -/
theorem MemberStep.others (hstep : MemberStep setup queued g g' slot)
    (hid : id ≠ queued.proposal.id) (hseen : g.seen.get id = none)
    (hfresh : id ∉ g.prepared.map PreparedRecord.proposalId) :
    g'.seen.get id = none ∧ id ∉ g'.prepared.map PreparedRecord.proposalId := by
  cases hstep with
  | unencoded error => exact ⟨hseen, hfresh⟩
  | failed encoded error => exact ⟨hseen, hfresh⟩
  | seen encoded previous => exact ⟨hseen, hfresh⟩
  | committed encoded receipt => exact ⟨by rw [OrdMap.get_insert_of_ne _ _ hid]; exact hseen, hfresh⟩
  | prepared encoded commit c hencoded hnone hreceipt hbody =>
    refine ⟨by rw [OrdMap.get_insert_of_ne _ _ hid]; exact hseen, ?_⟩
    obtain ⟨-, -, -, -, hcommit, -⟩ := prepareBody_ok hbody
    rw [map_append, mem_append, map_singleton, mem_singleton, hcommit]
    exact not_or.mpr ⟨hfresh, hid⟩

theorem MemberStep.prepared_length (hstep : MemberStep setup queued g g' slot) :
    g'.prepared.length ≤ g.prepared.length + 1 := by
  cases hstep <;> simp

theorem Follows.members {group : List (Queued Op)} {final : GroupState Data Op}
    (h : Follows pins c₀ g c) (hbased : ∀ queued ∈ group, Based pins c₀ queued)
    (hids : (group.map fun queued => queued.proposal.id).Nodup)
    (hseen : ∀ queued ∈ group, g.seen.get queued.proposal.id = none)
    (hfresh : ∀ queued ∈ group,
      queued.proposal.id ∉ g.prepared.map PreparedRecord.proposalId)
    (hroom : c.history.current.val + group.length < 2 ^ 64)
    (huuid : ∀ record ∈ final.prepared, validUuid record.proposalId = true)
    (hfold : group.foldlM (groupMember setup) g = .ok final) :
    ∃ slots, final.slots = g.slots ++ slots ∧
      (∀ commitSeq, List.Forall₂ SameAnswer (slots.map (GroupSlot.result commitSeq))
        (oneByOneResults setup ⟨c, pins⟩ group)) ∧
      Follows pins c₀ final ((⟨c, pins⟩ : Committer Data Op).run setup (oneByOne group)).canonical := by
  induction group generalizing g c with
  | nil =>
    cases hfold
    exact ⟨[], by simp, fun _ => .nil, h⟩
  | cons queued rest ih =>
    rw [foldlM_cons] at hfold
    obtain ⟨g₁, hmember, hfold⟩ := of_bind hfold
    obtain ⟨_, hstep⟩ := groupMember_ok hmember
    obtain ⟨slots', hmembers⟩ := members_of_foldlM hfold
    rw [map_cons, nodup_cons] at hids
    rw [length_cons] at hroom
    obtain ⟨slot, c₁, result, hslot, halone, hnext, hanswer⟩ := h.step
      (hbased queued mem_cons_self) (hfresh queued mem_cons_self)
      (hseen queued mem_cons_self) (by omega)
      (fun record hrecord => huuid record (hmembers.prepared_mono hrecord)) hmember
    have hothers : ∀ other ∈ rest, g₁.seen.get other.proposal.id = none ∧
        other.proposal.id ∉ g₁.prepared.map PreparedRecord.proposalId := by
      intro other hother
      refine hstep.others ?_ (hseen other (mem_cons_of_mem _ hother))
        (hfresh other (mem_cons_of_mem _ hother))
      intro heq
      exact hids.1 (heq ▸ mem_map_of_mem (f := fun q : Queued Op => q.proposal.id) hother)
    have hcount := hstep.prepared_length
    have hbefore := h.current
    have hafter := hnext.current
    obtain ⟨slots, hslots, hanswers, hfinal⟩ := ih hnext
      (fun other hother => hbased other (mem_cons_of_mem _ hother)) hids.2
      (fun other hother => (hothers other hother).1)
      (fun other hother => (hothers other hother).2) (by omega) hfold
    have hone : groupResults setup (⟨c, pins⟩ : Committer Data Op) [queued] = [result] := by
      rw [groupResults, halone]
    have hsame : (⟨c, pins⟩ : Committer Data Op).step setup (.commitGroup [queued]) =
        ⟨c₁, pins⟩ := by
      rw [Committer.step, groupCanonical, halone]
    refine ⟨slot :: slots, by rw [hslots, hslot]; simp, fun commitSeq => ?_, ?_⟩
    · rw [oneByOneResults, hone, hsame]
      exact .cons (hanswer commitSeq) (hanswers commitSeq)
    · rw [oneByOne, map_cons, Committer.run, foldl_cons, hsame]
      exact hfinal

/-! ## A group completes -/

variable (setup) in
/-- Whether a member panics. -/
def panics (g : GroupState Data Op) (queued : Queued Op) : Bool :=
  (setup.logical.encodeProposal queued.proposal).isOk &&
    (g.seen.get queued.proposal.id).isNone &&
    match prepareMember setup g.canonical queued g.acceptedWrites.toList with
    | .ok _ => false
    | .error error => error.isPanic

variable (setup) in
/-- No member of a group panics. -/
def nonePanics : GroupState Data Op → List (Queued Op) → Bool
  | _, [] => true
  | g, queued :: rest =>
      !panics setup g queued &&
        (groupMember setup g queued).toOption.all fun g' => nonePanics g' rest

theorem groupMember_completes (hcalm : panics setup g queued = false) :
    ∃ g', groupMember setup g queued = .ok g' := by
  rw [groupMember]
  rw [panics] at hcalm
  split
  · exact ⟨_, rfl⟩
  next encoded hencoded =>
    split
    · exact ⟨_, rfl⟩
    next hseen =>
      simp only [hencoded, hseen, Except.isOk, Except.toBool, Option.isNone_none, Bool.true_and]
        at hcalm
      cases hmember : prepareMember setup g.canonical queued g.acceptedWrites.toList with
      | ok member => cases member <;> exact ⟨_, rfl⟩
      | error error =>
        rw [hmember] at hcalm
        rw [GroupState.settle, if_neg (Bool.eq_false_iff.mp hcalm)]
        exact ⟨_, rfl⟩

/-- What was prepared can be recorded, and was seen. -/
structure Recordable (g : GroupState Data Op) : Prop where
  takes : g.canonical.history.Takes g.prepared
  seen : ∀ record ∈ g.prepared, g.seen.get record.proposalId ≠ none

omit [DecidableEq Op] in
theorem Recordable.start (c : Canonical Data Op) : Recordable (GroupState.start c) :=
  ⟨⟨.nil, nofun, nofun, nofun⟩, nofun⟩

theorem Recordable.step (hr : Recordable g) (huuid : validUuid queued.proposal.id = true)
    (hstep : MemberStep setup queued g g' slot) : Recordable g' := by
  have hold : ∀ record ∈ g.prepared, g'.seen.get record.proposalId ≠ none := by
    intro record hrecord
    obtain ⟨entry, hentry⟩ := Option.ne_none_iff_exists'.mp (hr.seen record hrecord)
    rw [hstep.seen_mono hentry]
    nofun
  cases hstep with
  | unencoded error => exact ⟨hr.takes, hold⟩
  | failed encoded error => exact ⟨hr.takes, hold⟩
  | seen encoded previous => exact ⟨hr.takes, hold⟩
  | committed encoded receipt => exact ⟨hr.takes, hold⟩
  | prepared encoded commit c hencoded hseen hreceipt hbody =>
    obtain ⟨hhistory, hsorted, -, -, hid, -⟩ := prepareBody_ok hbody
    have hfree : ∀ row ∈ g.canonical.history.rows, row.proposalId ≠ queued.proposal.id := by
      simpa using find?_eq_none.mp (committedReceipt_none hreceipt)
    refine ⟨⟨?_, ?_, ?_, ?_⟩, ?_⟩
    · rw [map_append, map_singleton, hid, nodup_append]
      refine ⟨hr.takes.nodup, nodup_singleton _, fun id hmem id' hmem' heq => ?_⟩
      obtain ⟨record, hrecord, rfl⟩ := mem_map.mp hmem
      obtain rfl := mem_singleton.mp hmem'
      exact hr.seen record hrecord (heq ▸ hseen)
    · exact forall_mem_append.mpr ⟨hr.takes.uuid, by simpa [hid] using huuid⟩
    · exact forall_mem_append.mpr ⟨hr.takes.sorted, by simpa using hsorted⟩
    · rw [hhistory]
      exact forall_mem_append.mpr ⟨hr.takes.fresh, by simpa [hid] using hfree⟩
    · exact forall_mem_append.mpr ⟨hold, by simp [hid, OrdMap.get_insert_self]⟩

variable {group : List (Queued Op)}

theorem foldlM_completes (hr : Recordable g)
    (huuid : ∀ queued ∈ group, validUuid queued.proposal.id = true)
    (hcalm : nonePanics setup g group = true) :
    ∃ final, group.foldlM (groupMember setup) g = .ok final ∧ Recordable final := by
  induction group generalizing g with
  | nil => exact ⟨g, rfl, hr⟩
  | cons queued rest ih =>
    rw [nonePanics, Bool.and_eq_true, Bool.not_eq_true'] at hcalm
    obtain ⟨g', hmember⟩ := groupMember_completes hcalm.1
    obtain ⟨slot, hstep⟩ := groupMember_ok hmember
    rw [forall_mem_cons] at huuid
    rw [hmember] at hcalm
    obtain ⟨final, hfold, hfinal⟩ := ih (hr.step huuid.1 hstep) huuid.2 hcalm.2
    exact ⟨final, by rw [foldlM_cons, hmember, ok_bind, hfold], hfinal⟩

/-- **One group or one by one.**  New proposals with distinct ids, the base of every
transaction pinned, and room for as many sequences as there are members: a group completes
if no member panics and every id is a UUID of version 4.  If it completes, it answers as
the same proposals do one by one and leaves the same SQL state, sidecars, journal and
client records.  The commit logs record the same above every live pin, and a member that
fails leaves nothing. -/
theorem group_eq_oneByOne (setup : Setup Data Op) (pins : HistoryPins) (c : Canonical Data Op)
    (group : List (Queued Op)) (hids : (group.map fun queued => queued.proposal.id).Nodup)
    (hnew : ∀ queued ∈ group, c.history.committed queued.proposal.id = none)
    (hbase : ∀ queued ∈ group, ∀ body, queued.proposal.body = .transaction body →
      body.snapshot.commitSeq ≤ c.history.current ∧ pins.Alive body.snapshot.commitSeq)
    (hroom : c.history.current.val + group.length < 2 ^ 64) :
    (nonePanics setup (GroupState.start c) group = true →
      (∀ queued ∈ group, validUuid queued.proposal.id = true) →
      ∃ c' results, commitProposalGroup setup c pins group = .ok (c', results)) ∧
    ∀ c' results, commitProposalGroup setup c pins group = .ok (c', results) →
      List.Forall₂ SameAnswer results (oneByOneResults setup ⟨c, pins⟩ group) ∧
      ((⟨c, pins⟩ : Committer Data Op).run setup (oneByOne group)).canonical.withHistory
          c'.history = c' ∧
      (∀ p, pins.Alive p → p ≤ c.history.current →
        (((⟨c, pins⟩ : Committer Data Op).run setup (oneByOne group)).canonical.history.newer
          p).map CommitRow.record = (c'.history.newer p).map CommitRow.record) ∧
      ∀ a ∈ groupTrace setup ⟨c, pins⟩ group, (∃ error, a.result = .error error) →
        a.after = a.before := by
  refine ⟨fun hcalm huuid => ?_, fun c' results hgroup => ?_⟩
  · obtain ⟨final, hfold, htakes, -⟩ := foldlM_completes (Recordable.start c) huuid hcalm
    obtain ⟨slots, hmembers⟩ := members_of_foldlM hfold
    have hnext : final.prepared ≠ [] → final.canonical.history.current.val + 1 < 2 ^ 64 := by
      intro hprepared
      have hne : group ≠ [] := by
        rintro rfl
        cases hfold
        exact hprepared rfl
      have hpos := length_pos_of_ne_nil hne
      rw [(hmembers.seen (Seen.start c)).history]
      omega
    obtain ⟨recorded, hfinal⟩ := finalizeGroup_of_takes htakes hnext
    rw [commitProposalGroup, hfold, ok_bind, hfinal]
    exact ⟨_, _, rfl⟩
  obtain ⟨final, slots, commitSeq, history, hfold, hmembers, hfinal, rfl, rfl⟩ :=
    commitProposalGroup_ok hgroup
  have htakes := (finalizeGroup_ok hfinal).2.2.2
  obtain ⟨slots', hslots', hanswers, hfollows⟩ := (Follows.start c).members
    (fun queued hqueued => ⟨hnew queued hqueued, hbase queued hqueued⟩) hids
    (fun queued _ => rfl) (fun queued _ => by simp [GroupState.start]) hroom
    htakes.uuid hfold
  have hslots : slots = slots' := by
    have := hmembers.slots_eq.symm.trans hslots'
    exact append_cancel_left this
  refine ⟨hslots ▸ hanswers commitSeq, ?_, fun p halive hp => ?_, fun a ha hfailed => ?_⟩
  · rw [hfollows.same]
    rfl
  · obtain ⟨rows, hrecords, -, hnewer⟩ := hfollows.rows
    obtain ⟨rfl, -, hnext, -⟩ := finalizeGroup_ok hfinal
    have hkept : ∀ row ∈ final.prepared.map (·.row commitSeq),
        decide (p < row.commitSeq) = true := by
      intro row hrow
      obtain ⟨record, hrecord, rfl⟩ := mem_map.mp hrow
      have hseq := hnext (ne_nil_of_mem hrecord)
      rw [Fin.le_def] at hp
      rw [decide_eq_true_eq, Fin.lt_def]
      change p.val < commitSeq.val
      omega
    rw [hnewer p halive hp, newer_pruneFor halive, History.newer, History.newer,
      filter_append, filter_eq_self.mpr hkept, map_append, map_append,
      hrecords]
    simp [Function.comp_def, CommitRow.record, PreparedRecord.row]
  · by_contra hchanged
    obtain ⟨error, herror⟩ := hfailed
    have htrace : a ∈ (⟨c, pins⟩ : Committer Data Op).trace setup [.commitGroup group] :=
      mem_append_left _ ha
    obtain ⟨receipt, happlied, -⟩ := applied_of_changed htrace hchanged
    cases happlied.symm.trans herror

end Follow

/-! ## A base that is not pinned -/

namespace Unpinned

open Resubmitting (setup key)

/-- An id for each number. -/
def id (n : U8) : ProposalId :=
  ⟨[0, n, 0, 0, 0, 0, 64, 0, 128, 0, 0, 0, 0, 0, 0, 0], rfl⟩

/-- Another row than `Resubmitting.key`. -/
def otherKey : Key := Key.ofByte 2

/-- A transaction that writes one row. -/
def write (base : CommitSeq) (n : U8) (row : Key) : Queued Unit where
  proposal := ⟨id n, .transaction {
    snapshot := ⟨base, 0, Client.OplogCursors.default⟩
    isolation := .snapshot
    compiled := ⟨⟨id n, [()]⟩, [.set row []], [⟨row, .write⟩], [()]⟩
    footprint := ConflictFootprint.ofGuards [⟨row, .write⟩] }⟩
  nonces := [ByteArr.zero 24]
  fault := none

/-- Three transactions on the empty database; the first and the last write the same row. -/
def group : List (Queued Unit) := [write 0 1 key, write 0 2 otherKey, write 0 3 key]

/-- In one group the last conflicts with the first.  One by one, the row of the first is
pruned with the second group, and the last is applied over it. -/
theorem group_conflicts_alone_applies :
    (group.map fun queued => queued.proposal.id).Nodup ∧
      (∀ queued ∈ group,
        (Canonical.fresh Unit ()).history.committed queued.proposal.id = none) ∧
      groupResults setup (Committer.fresh Unit ()) group =
        [.ok ⟨1, .applied, some 1⟩, .ok ⟨1, .applied, some 2⟩,
          .error (.commitConflict .group)] ∧
      oneByOneResults setup (Committer.fresh Unit ()) group =
        [.ok ⟨1, .applied, some 1⟩, .ok ⟨2, .applied, some 2⟩, .ok ⟨3, .applied, some 3⟩] := by
  refine ⟨by decide +kernel, fun _ _ => rfl, by decide +kernel, by decide +kernel⟩

/-- A pin at the empty database. -/
def pins : HistoryPins := HistoryPins.register OrdMap.empty 0

/-- With their base pinned, the group of the three completes, and they are answered alike. -/
theorem group_eq_oneByOne_pinned :
    nonePanics setup (GroupState.start (Canonical.fresh Unit ())) group = true ∧
      ∃ c' results, commitProposalGroup setup (Canonical.fresh Unit ()) pins group =
          .ok (c', results) ∧
        List.Forall₂ SameAnswer results
          (oneByOneResults setup ⟨Canonical.fresh Unit (), pins⟩ group) := by
  have hcalm : nonePanics setup (GroupState.start (Canonical.fresh Unit ())) group = true := by
    decide +kernel
  have hbases : ∀ queued ∈ group, ∀ body, queued.proposal.body = .transaction body →
      body.snapshot.commitSeq ≤ 0 ∧ pins.Alive body.snapshot.commitSeq := by
    simp only [group, forall_mem_cons]
    refine ⟨?_, ?_, ?_, by simp⟩ <;> rintro _ ⟨⟩ <;> exact ⟨le_refl _, rfl⟩
  obtain ⟨hcompletes, hsame⟩ := group_eq_oneByOne setup pins (Canonical.fresh Unit ()) group
    (by decide +kernel) (fun _ _ => rfl) hbases (by decide)
  obtain ⟨c', results, hgroup⟩ := hcompletes hcalm (by decide +kernel)
  exact ⟨hcalm, c', results, hgroup, (hsame c' results hgroup).1⟩

end Unpinned

end Homebase.Multilite
