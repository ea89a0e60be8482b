import Homebase.Refine.Members

set_option autoImplicit false

/-!
# Refinement: what one commit group does

A group is followed member by member (`memberStates`): each member appends one slot and
leaves the state as it was, unless it was prepared.  What a group has seen of an id is
either a member that it prepared or a receipt from the commit log (`Seen`).
-/

namespace Homebase.Multilite

open Foundation Homebase.Core List
open OrdMap (get_insert)
open Client (ValueNonce)

section Groups

variable {Data Op : Type} [DecidableEq Op] {setup : Setup Data Op}
  {g g' : GroupState Data Op} {queued : Queued Op}

/-! ## One member -/

variable {c c' : Canonical Data Op} {accepted : List WriteRegion}

theorem prepareMember_prepared {commit : PreparedRecord}
    (h : prepareMember setup c queued accepted = .ok (.prepared commit c')) :
    committedReceipt setup c queued.proposal = .ok none ∧
      prepareBody setup c queued.proposal accepted queued.nonces = .ok (commit, c') := by
  rw [prepareMember] at h
  split at h
  · cases h
  · obtain ⟨found, hfound, h⟩ := of_bind h
    cases found with
    | some receipt => cases h
    | none =>
      obtain ⟨⟨record, c₁⟩, hbody, h⟩ := of_bind h
      cases h
      exact ⟨hfound, hbody⟩

theorem prepareMember_committed {receipt : CommitReceipt}
    (h : prepareMember setup c queued accepted = .ok (.alreadyCommitted receipt)) :
    committedReceipt setup c queued.proposal = .ok (some receipt) := by
  rw [prepareMember] at h
  split at h
  · cases h
  · obtain ⟨found, hfound, h⟩ := of_bind h
    cases found with
    | some other =>
      cases h
      exact hfound
    | none =>
      obtain ⟨⟨record, c₁⟩, hbody, h⟩ := of_bind h
      cases h

/-- How a member changes its group. -/
inductive MemberStep (setup : Setup Data Op) (queued : Queued Op) (g : GroupState Data Op) :
    GroupState Data Op → GroupSlot → Prop
  /-- It could not be encoded. -/
  | unencoded (error : LogicalError)
      (hencoded : setup.logical.encodeProposal queued.proposal = .error error) :
      MemberStep setup queued g
        { g with slots := g.slots ++ [.complete (.error (.logical error))] }
        (.complete (.error (.logical error)))
  /-- It failed. -/
  | failed (encoded : Bytes) (error : CommitError)
      (hencoded : setup.logical.encodeProposal queued.proposal = .ok encoded)
      (hseen : g.seen.get queued.proposal.id = none)
      (hfailed : prepareMember setup g.canonical queued g.acceptedWrites.toList = .error error) :
      MemberStep setup queued g { g with slots := g.slots ++ [.complete (.error error)] }
        (.complete (.error error))
  /-- The group has seen its id. -/
  | seen (encoded : Bytes) (previous : SeenGroupProposal)
      (hencoded : setup.logical.encodeProposal queued.proposal = .ok encoded)
      (hseen : g.seen.get queued.proposal.id = some previous) :
      MemberStep setup queued g { g with slots := g.slots ++ [seenSlot previous encoded] }
        (seenSlot previous encoded)
  /-- The commit log has its receipt. -/
  | committed (encoded : Bytes) (receipt : CommitReceipt)
      (hencoded : setup.logical.encodeProposal queued.proposal = .ok encoded)
      (hseen : g.seen.get queued.proposal.id = none)
      (hreceipt : committedReceipt setup g.canonical queued.proposal = .ok (some receipt)) :
      MemberStep setup queued g
        { g with
          slots := g.slots ++ [.complete (.ok receipt)]
          seen := g.seen.insert queued.proposal.id ⟨encoded, some receipt, receipt.submitted⟩ }
        (.complete (.ok receipt))
  /-- It was prepared. -/
  | prepared (encoded : Bytes) (commit : PreparedRecord) (c : Canonical Data Op)
      (hencoded : setup.logical.encodeProposal queued.proposal = .ok encoded)
      (hseen : g.seen.get queued.proposal.id = none)
      (hreceipt : committedReceipt setup g.canonical queued.proposal = .ok none)
      (hbody : prepareBody setup g.canonical queued.proposal g.acceptedWrites.toList
        queued.nonces = .ok (commit, c)) :
      MemberStep setup queued g
        { canonical := c
          acceptedWrites := g.acceptedWrites.extend commit.writes
          prepared := g.prepared ++ [commit]
          slots := g.slots ++ [.prepared commit.submitted]
          seen := g.seen.insert queued.proposal.id ⟨encoded, none, commit.submitted⟩ }
        (.prepared commit.submitted)

theorem groupMember_ok (h : groupMember setup g queued = .ok g') :
    ∃ slot, MemberStep setup queued g g' slot := by
  rw [groupMember] at h
  split at h
  next error hencoded =>
    cases h
    exact ⟨_, .unencoded error hencoded⟩
  next encoded hencoded =>
    split at h
    next previous hseen =>
      cases h
      exact ⟨_, .seen encoded previous hencoded hseen⟩
    next hseen =>
      generalize hmember : prepareMember setup g.canonical queued g.acceptedWrites.toList = outcome
        at h
      match outcome, hmember, h with
      | .ok (.prepared commit c), hmember, h =>
        cases h
        obtain ⟨hreceipt, hbody⟩ := prepareMember_prepared hmember
        exact ⟨_, .prepared encoded commit c hencoded hseen hreceipt hbody⟩
      | .ok (.alreadyCommitted receipt), hmember, h =>
        cases h
        exact ⟨_, .committed encoded receipt hencoded hseen (prepareMember_committed hmember)⟩
      | .error error, hmember, h =>
        rw [GroupState.settle] at h
        obtain ⟨-, h⟩ := of_guard h
        cases h
        exact ⟨_, .failed encoded error hencoded hseen hmember⟩

variable {slot : GroupSlot}

theorem MemberStep.slots_eq (h : MemberStep setup queued g g' slot) :
    g'.slots = g.slots ++ [slot] := by
  cases h <;> rfl

/-- Only a prepared member changes the database. -/
theorem MemberStep.canonical_eq (h : MemberStep setup queued g g' slot)
    (hslot : ∀ submitted, slot ≠ .prepared submitted) : g'.canonical = g.canonical := by
  cases h with
  | prepared encoded commit c => exact absurd rfl (hslot commit.submitted)
  | unencoded error => rfl
  | failed encoded error => rfl
  | seen encoded previous => rfl
  | committed encoded receipt => rfl

theorem MemberStep.history_eq (h : MemberStep setup queued g g' slot) :
    g'.canonical.history = g.canonical.history := by
  cases h with
  | prepared encoded commit c hencoded hseen hreceipt hbody => exact (prepareBody_ok hbody).1
  | unencoded error => rfl
  | failed encoded error => rfl
  | seen encoded previous => rfl
  | committed encoded receipt => rfl

/-! ## What a group has seen -/

/-- What a group that started with the commit log `h` has seen and prepared. -/
structure Seen (setup : Setup Data Op) (h : History) (g : GroupState Data Op) : Prop where
  history : g.canonical.history = h
  /-- A prepared member is among the prepared records, and no row had its id. -/
  prepared : ∀ id entry, g.seen.get id = some entry → entry.receipt = none →
    h.committed id = none ∧ ∃ record ∈ g.prepared, record.proposalId = id ∧
      record.proposalHash = setup.sha256 entry.encoded ∧ record.submitted = entry.submitted
  /-- A receipt was read from the row with the id. -/
  committed : ∀ id entry receipt, g.seen.get id = some entry → entry.receipt = some receipt →
    ∃ row, h.committed id = some row ∧ row.proposalHash = setup.sha256 entry.encoded ∧
      receipt = ⟨row.commitSeq, .alreadyCommitted, row.submitted⟩

omit [DecidableEq Op] in
theorem Seen.start (c : Canonical Data Op) : Seen setup c.history (GroupState.start c) where
  history := rfl
  prepared := by
    intro id entry h
    cases h
  committed := by
    intro id entry receipt h
    cases h

variable {h : History}

theorem Seen.step (hs : Seen setup h g) (hstep : MemberStep setup queued g g' slot) :
    Seen setup h g' := by
  have hhistory : g'.canonical.history = h := hstep.history_eq.trans hs.history
  cases hstep with
  | unencoded error => exact ⟨hhistory, hs.prepared, hs.committed⟩
  | failed encoded error => exact ⟨hhistory, hs.prepared, hs.committed⟩
  | seen encoded previous => exact ⟨hhistory, hs.prepared, hs.committed⟩
  | committed encoded receipt hencoded hseen hreceipt =>
    refine ⟨hhistory, ?_, ?_⟩
    · intro id entry hget hnone
      rw [get_insert] at hget
      split at hget
      · cases hget
        cases hnone
      · exact hs.prepared id entry hget hnone
    · intro id entry found hget hsome
      rw [get_insert] at hget
      split at hget
      next heq =>
        cases hget
        cases hsome
        subst heq
        cases hrow : h.committed queued.proposal.id with
        | none =>
          rw [committedReceipt, hs.history, hrow] at hreceipt
          cases hreceipt
        | some row =>
          rw [committedReceipt_of_row (hs.history ▸ hrow) hencoded] at hreceipt
          split at hreceipt
          next hhash =>
            cases hreceipt
            exact ⟨row, rfl, hhash, rfl⟩
          · cases hreceipt
      · exact hs.committed id entry found hget hsome
  | prepared encoded commit c hencoded hseen hreceipt hbody =>
    obtain ⟨-, -, encoded', hencoded', hid, hhash⟩ := prepareBody_ok hbody
    cases hencoded.symm.trans hencoded'
    refine ⟨hhistory, ?_, ?_⟩
    · intro id entry hget hnone
      rw [get_insert] at hget
      split at hget
      next heq =>
        cases hget
        subst heq
        refine ⟨hs.history ▸ committedReceipt_none hreceipt, commit, by simp, hid, hhash, rfl⟩
      · obtain ⟨hfree, record, hmem, hrecord⟩ := hs.prepared id entry hget hnone
        exact ⟨hfree, record, mem_append_left _ hmem, hrecord⟩
    · intro id entry found hget hsome
      rw [get_insert] at hget
      split at hget
      · cases hget
        cases hsome
      · exact hs.committed id entry found hget hsome

variable {id : ProposalId} {entry : SeenGroupProposal}

/-- What was seen of an id stays. -/
theorem MemberStep.seen_mono (h : MemberStep setup queued g g' slot)
    (hget : g.seen.get id = some entry) :
    g'.seen.get id = some entry := by
  have hother : g.seen.get queued.proposal.id = none → id ≠ queued.proposal.id := by
    rintro hnone rfl
    rw [hnone] at hget
    cases hget
  cases h with
  | unencoded error => exact hget
  | failed encoded error => exact hget
  | seen encoded previous => exact hget
  | committed encoded receipt hencoded hseen hreceipt =>
    rwa [OrdMap.get_insert_of_ne _ _ (hother hseen)]
  | prepared encoded commit c hencoded hseen hreceipt hbody =>
    rwa [OrdMap.get_insert_of_ne _ _ (hother hseen)]

variable {record : PreparedRecord}

/-- Prepared members stay prepared. -/
theorem MemberStep.prepared_mono (h : MemberStep setup queued g g' slot)
    (hmem : record ∈ g.prepared) : record ∈ g'.prepared := by
  cases h with
  | prepared encoded commit c => exact mem_append_left _ hmem
  | unencoded error => exact hmem
  | failed encoded error => exact hmem
  | seen encoded previous => exact hmem
  | committed encoded receipt => exact hmem

/-! ## All members -/

/-- The members of a group, one after the other, with the slots they append. -/
inductive Members (setup : Setup Data Op) :
    GroupState Data Op → List (Queued Op) → List GroupSlot → GroupState Data Op → Prop
  | nil (g : GroupState Data Op) : Members setup g [] [] g
  | cons {g g' final : GroupState Data Op} {queued : Queued Op} {rest : List (Queued Op)}
      {slot : GroupSlot} {slots : List GroupSlot}
      (hmember : groupMember setup g queued = .ok g')
      (hstep : MemberStep setup queued g g' slot) (hrest : Members setup g' rest slots final) :
      Members setup g (queued :: rest) (slot :: slots) final

variable {group : List (Queued Op)} {final : GroupState Data Op}

theorem members_of_foldlM (h : group.foldlM (groupMember setup) g = .ok final) :
    ∃ slots, Members setup g group slots final := by
  induction group generalizing g with
  | nil =>
    cases h
    exact ⟨[], .nil _⟩
  | cons queued rest ih =>
    rw [foldlM_cons] at h
    obtain ⟨g₁, hmember, h⟩ := of_bind h
    obtain ⟨slot, hstep⟩ := groupMember_ok hmember
    obtain ⟨slots, hrest⟩ := ih h
    exact ⟨slot :: slots, .cons hmember hstep hrest⟩

variable {slots : List GroupSlot}

theorem Members.slots_eq (hm : Members setup g group slots final) :
    final.slots = g.slots ++ slots := by
  induction hm with
  | nil g => simp
  | cons hmember hstep hrest ih =>
    rw [ih, hstep.slots_eq, append_assoc, singleton_append]

theorem Members.seen (hm : Members setup g group slots final) (hs : Seen setup h g) :
    Seen setup h final := by
  induction hm with
  | nil g => exact hs
  | cons hmember hstep hrest ih => exact ih (hs.step hstep)

theorem Members.prepared_mono (hm : Members setup g group slots final)
    (hmem : record ∈ g.prepared) : record ∈ final.prepared := by
  induction hm with
  | nil g => exact hmem
  | cons hmember hstep hrest ih => exact ih (hstep.prepared_mono hmem)

theorem Members.seen_mono (hm : Members setup g group slots final)
    (hget : g.seen.get id = some entry) :
    final.seen.get id = some entry := by
  induction hm with
  | nil g => exact hget
  | cons hmember hstep hrest ih => exact ih (hstep.seen_mono hget)

/-- What a member adds to what the group has seen is its own encoding. -/
theorem MemberStep.seen_source (h : MemberStep setup queued g g' slot)
    (hget : g'.seen.get id = some entry) :
    g.seen.get id = some entry ∨
      setup.logical.encodeProposal queued.proposal = .ok entry.encoded := by
  cases h with
  | unencoded error => exact .inl hget
  | failed encoded error => exact .inl hget
  | seen encoded previous => exact .inl hget
  | committed encoded receipt hencoded hseen hreceipt =>
    rw [get_insert] at hget
    split at hget
    · cases hget
      exact .inr hencoded
    · exact .inl hget
  | prepared encoded commit c hencoded hseen hreceipt hbody =>
    rw [get_insert] at hget
    split at hget
    · cases hget
      exact .inr hencoded
    · exact .inl hget

theorem Members.seen_source (hm : Members setup g group slots final)
    (hget : final.seen.get id = some entry) :
    g.seen.get id = some entry ∨
      ∃ q ∈ group, setup.logical.encodeProposal q.proposal = .ok entry.encoded := by
  induction hm with
  | nil g => exact .inl hget
  | cons hmember hstep hrest ih =>
    rcases ih hget with hget | ⟨q, hq, hencoded⟩
    · rcases hstep.seen_source hget with hget | hencoded
      · exact .inl hget
      · exact .inr ⟨_, mem_cons_self, hencoded⟩
    · exact .inr ⟨q, mem_cons_of_mem _ hq, hencoded⟩

/-! ## The whole group -/

omit [DecidableEq Op] in
theorem finalizeGroup_ok {h' : History} {prepared : List PreparedRecord} {commitSeq : CommitSeq}
    (hfinal : finalizeGroup h prepared = .ok (commitSeq, h')) :
    h' = ⟨commitSeq, h.rows ++ prepared.map (·.row commitSeq)⟩ ∧ h.current ≤ commitSeq ∧
      (prepared ≠ [] → commitSeq.val = h.current.val + 1) ∧ h.Takes prepared := by
  rw [finalizeGroup] at hfinal
  split at hfinal
  next hnil =>
    cases hfinal
    subst hnil
    exact ⟨by simp, le_refl _, absurd rfl, by simp, by simp, by simp, by simp⟩
  · split at hfinal
    next recorded hrecorded =>
      cases hfinal
      obtain ⟨-, htakes, hnext, rfl⟩ := History.recordGroup_eq_ok_iff.mp hrecorded
      refine ⟨rfl, ?_, fun _ => hnext, htakes⟩
      rw [Fin.le_def]
      omega
    · cases hfinal

omit [DecidableEq Op] in
theorem finalizeGroup_of_takes {prepared : List PreparedRecord} (htakes : h.Takes prepared)
    (hroom : prepared ≠ [] → h.current.val + 1 < 2 ^ 64) :
    ∃ recorded, finalizeGroup h prepared = .ok recorded := by
  rw [finalizeGroup]
  split
  · exact ⟨_, rfl⟩
  next hnil =>
    have hnext : (⟨_, hroom hnil⟩ : U64).val = h.current.val + 1 := rfl
    rw [History.recordGroup_eq_ok_iff.mpr ⟨hnil, htakes, hnext, rfl⟩]
    exact ⟨_, rfl⟩

/-- A group that completes. -/
theorem commitProposalGroup_ok {pins : HistoryPins}
    {results : List (Except CommitError CommitReceipt)}
    (h : commitProposalGroup setup c pins group = .ok (c', results)) :
    ∃ final slots commitSeq history, group.foldlM (groupMember setup) (GroupState.start c) =
        .ok final ∧ Members setup (GroupState.start c) group slots final ∧
      finalizeGroup c.history final.prepared = .ok (commitSeq, history) ∧
      c' = { final.canonical with history := history.pruneFor pins } ∧
      results = slots.map (GroupSlot.result commitSeq) := by
  obtain ⟨final, hfold, h⟩ := of_bind h
  obtain ⟨⟨commitSeq, history⟩, hfinal, h⟩ := of_bind h
  cases h
  obtain ⟨slots, hmembers⟩ := members_of_foldlM hfold
  rw [(hmembers.seen (Seen.start c)).history] at hfinal
  refine ⟨final, slots, commitSeq, history, hfold, hmembers, hfinal, rfl, ?_⟩
  rw [hmembers.slots_eq]
  rfl

end Groups

end Homebase.Multilite
