import Homebase.Refine.Groups

set_option autoImplicit false

/-!
# Properties: retention of the commit log and idempotence of proposals

While a pin is alive, no row newer than it is pruned (`Retained`), so a transaction whose
base is pinned finds its receipt however often it is submitted again.

A run is followed submission by submission (`Committer.trace`): the state each member of
a group found and left, and what it was answered.
-/

namespace Homebase.Multilite

open Foundation Homebase.Core List

/-- One member of a group: the database it found and left inside the group, whether the
whole group failed, and its answer. -/
structure Submission (Data Op : Type) where
  queued : Queued Op
  pins : HistoryPins
  before : Canonical Data Op
  after : Canonical Data Op
  groupFailed : Bool
  result : Except CommitError CommitReceipt

namespace Submission

variable {Data Op : Type}

/-- The answer `Applied`. -/
def AppliedAs (a : Submission Data Op) (receipt : CommitReceipt) : Prop :=
  a.result = .ok receipt ∧ receipt.disposition = .applied

/-- The surroundings failed the member, or its group as a whole. -/
def Interrupted (a : Submission Data Op) : Prop :=
  a.groupFailed = true ∨ a.queued.fault.isSome

end Submission

section Trace

variable {Data Op : Type} [DecidableEq Op] (setup : Setup Data Op)

/-- The members of a group with the databases they find and leave. -/
def memberStates : GroupState Data Op → List (Queued Op) →
    List (Queued Op × Canonical Data Op × Canonical Data Op)
  | _, [] => []
  | g, queued :: rest =>
      match groupMember setup g queued with
      | .error _ => []
      | .ok g' => (queued, g.canonical, g'.canonical) :: memberStates g' rest

/-- The submissions of a group. -/
def groupTrace (s : Committer Data Op) (group : List (Queued Op)) : List (Submission Data Op) :=
  match commitProposalGroup setup s.canonical s.pins group with
  | .error error => group.map fun queued =>
      ⟨queued, s.pins, s.canonical, s.canonical, true, .error error⟩
  | .ok (_, results) => List.zipWith
      (fun member result => ⟨member.1, s.pins, member.2.1, member.2.2, false, result⟩)
      (memberStates setup (GroupState.start s.canonical) group) results

/-- The rows a group records. -/
def groupRecorded (s : Committer Data Op) (group : List (Queued Op)) : List CommitRow :=
  match group.foldlM (groupMember setup) (GroupState.start s.canonical) with
  | .error _ => []
  | .ok final =>
      match finalizeGroup final.canonical.history final.prepared with
      | .error _ => []
      | .ok (commitSeq, _) => final.prepared.map (·.row commitSeq)

/-- The submissions of an event. -/
def eventTrace (s : Committer Data Op) : CommitterEvent Op → List (Submission Data Op)
  | .commitGroup group => groupTrace setup s group
  | .captureSnapshot | .dropPin _ | .crash => []

/-- The rows an event records. -/
def eventRecorded (s : Committer Data Op) : CommitterEvent Op → List CommitRow
  | .commitGroup group => groupRecorded setup s group
  | .captureSnapshot | .dropPin _ | .crash => []

/-- The submissions of a run. -/
def Committer.trace : Committer Data Op → List (CommitterEvent Op) → List (Submission Data Op)
  | _, [] => []
  | s, event :: events => eventTrace setup s event ++ Committer.trace (s.step setup event) events

/-- The rows a run records, pruned or not. -/
def Committer.recorded : Committer Data Op → List (CommitterEvent Op) → List CommitRow
  | _, [] => []
  | s, event :: events =>
      eventRecorded setup s event ++ Committer.recorded (s.step setup event) events

/-- The proposals that are queued in a run. -/
def queuedProposals (events : List (CommitterEvent Op)) : List (CommitProposal Op) :=
  events.flatMap fun event => match event with
    | .commitGroup group => group.map Queued.proposal
    | .captureSnapshot | .dropPin _ | .crash => []

/-- SHA-256 tells the encodings of some proposals apart. -/
def NoCollision (proposals : List (CommitProposal Op)) : Prop :=
  ∀ p ∈ proposals, ∀ q ∈ proposals, ∀ x y, setup.logical.encodeProposal p = .ok x →
    setup.logical.encodeProposal q = .ok y → setup.sha256 x = setup.sha256 y → x = y

/-- What a submission `b` after `a` gets, if `a` was applied as a transaction, `b` has its
id and the base of the transaction is pinned: nothing changes, the same bytes get the
receipt of `a`, and other bytes get an error. -/
def Resubmits (a b : Submission Data Op) : Prop :=
  ∀ body receipt, a.queued.proposal.body = .transaction body → a.AppliedAs receipt →
    b.queued.proposal.id = a.queued.proposal.id → b.pins.Alive body.snapshot.commitSeq →
    b.after = b.before ∧
      (setup.logical.encodeProposal b.queued.proposal =
          setup.logical.encodeProposal a.queued.proposal → ¬ b.Interrupted →
        b.result = .ok ⟨receipt.commitSeq, .alreadyCommitted, receipt.submitted⟩) ∧
      (setup.logical.encodeProposal b.queued.proposal ≠
          setup.logical.encodeProposal a.queued.proposal → ∃ error, b.result = .error error)

end Trace

/-! ## Inside one group -/

section Group

variable {Data Op : Type} [DecidableEq Op] {setup : Setup Data Op} {g final : GroupState Data Op}
  {group : List (Queued Op)} {slots : List GroupSlot}

/-- The submissions of the members from `g` on. -/
def submissions (setup : Setup Data Op) (pins : HistoryPins) (commitSeq : CommitSeq)
    (g : GroupState Data Op) (group : List (Queued Op)) (slots : List GroupSlot) :
    List (Submission Data Op) :=
  List.zipWith (fun member result => ⟨member.1, pins, member.2.1, member.2.2, false, result⟩)
    (memberStates setup g group) (slots.map (GroupSlot.result commitSeq))

variable {g' : GroupState Data Op} {queued : Queued Op} {commitSeq : CommitSeq} {slot : GroupSlot}
  {pins : HistoryPins}

theorem submissions_cons (h : groupMember setup g queued = .ok g') :
    submissions setup pins commitSeq g (queued :: group) (slot :: slots) =
      ⟨queued, pins, g.canonical, g'.canonical, false, slot.result commitSeq⟩ ::
        submissions setup pins commitSeq g' group slots := by
  simp only [submissions, memberStates, h, map_cons, zipWith_cons_cons]

/-- A submission is one member of its group. -/
theorem Members.mem_submissions {b : Submission Data Op} (hm : Members setup g group slots final)
    (hb : b ∈ submissions setup pins commitSeq g group slots) :
    ∃ before after slot front frontSlots rest restSlots,
      Members setup g front frontSlots before ∧ MemberStep setup b.queued before after slot ∧
      Members setup after rest restSlots final ∧ group = front ++ b.queued :: rest ∧
      b = ⟨b.queued, pins, before.canonical, after.canonical, false, slot.result commitSeq⟩ := by
  induction hm with
  | nil g => cases hb
  | @cons g g' final queued rest slot slots hmember hstep hrest ih =>
    rw [submissions_cons hmember] at hb
    rcases mem_cons.mp hb with rfl | hb
    · exact ⟨g, g', slot, [], [], rest, slots, .nil g, hstep, hrest, rfl, rfl⟩
    · obtain ⟨before, after, slot', front, frontSlots, rest', restSlots, hfront, hb', hrest',
        rfl, heq⟩ := ih hb
      exact ⟨before, after, slot', queued :: front, slot :: frontSlots, rest', restSlots,
        .cons hmember hstep hfront, hb', hrest', rfl, heq⟩

variable {h : History}

/-- `Applied` is the answer of a prepared member. -/
theorem MemberStep.of_applied {receipt : CommitReceipt} (hs : Seen setup h g)
    (hstep : MemberStep setup queued g g' slot) (hresult : slot.result commitSeq = .ok receipt)
    (happlied : receipt.disposition = .applied) :
    ∃ encoded commit, setup.logical.encodeProposal queued.proposal = .ok encoded ∧
      prepareBody setup g.canonical queued.proposal g.acceptedWrites.toList queued.nonces =
        .ok (commit, g'.canonical) ∧ commit ∈ g'.prepared ∧
      receipt = ⟨commitSeq, .applied, commit.submitted⟩ ∧
      g'.seen.get queued.proposal.id = some ⟨encoded, none, commit.submitted⟩ := by
  cases hstep with
  | unencoded error => cases hresult
  | failed encoded error => cases hresult
  | seen encoded previous hencoded hseen =>
    rw [seenSlot] at hresult
    split at hresult
    · cases hresult
    · split at hresult
      next found hfound =>
        cases hresult
        obtain ⟨row, -, -, rfl⟩ := hs.committed _ _ _ hseen hfound
        cases happlied
      · cases hresult
        cases happlied
  | committed encoded found hencoded hseen hreceipt =>
    cases hresult
    obtain ⟨row, -, -, rfl⟩ := (hs.step (.committed encoded receipt hencoded hseen
      hreceipt)).committed _ _ _ (OrdMap.get_insert_self _ _ _) rfl
    cases happlied
  | prepared encoded commit c hencoded hseen hreceipt hbody =>
    cases hresult
    exact ⟨encoded, commit, hencoded, hbody, by simp, rfl, OrdMap.get_insert_self _ _ _⟩

variable {encoded : Bytes}

/-- A member whose id the group has prepared. -/
theorem MemberStep.after_prepared {submitted : Option DeviceSeq} (commitSeq : CommitSeq)
    (hstep : MemberStep setup queued g g' slot)
    (hget : g.seen.get queued.proposal.id = some ⟨encoded, none, submitted⟩) :
    g'.canonical = g.canonical ∧
      (setup.logical.encodeProposal queued.proposal = .ok encoded →
        slot.result commitSeq = .ok ⟨commitSeq, .alreadyCommitted, submitted⟩) ∧
      (setup.logical.encodeProposal queued.proposal ≠ .ok encoded →
        ∃ error, slot.result commitSeq = .error error) := by
  cases hstep with
  | unencoded error hencoded =>
    refine ⟨rfl, ?_, fun _ => ⟨_, rfl⟩⟩
    intro heq
    cases hencoded.symm.trans heq
  | failed other error hencoded hseen hfailed => cases hseen.symm.trans hget
  | committed other receipt hencoded hseen hreceipt => cases hseen.symm.trans hget
  | prepared other commit c hencoded hseen hreceipt hbody => cases hseen.symm.trans hget
  | seen other previous hencoded hseen =>
    cases hseen.symm.trans hget
    refine ⟨rfl, ?_, ?_⟩
    · intro heq
      cases hencoded.symm.trans heq
      simp [seenSlot, GroupSlot.result]
    · intro hne
      have hother : encoded ≠ other := by
        rintro rfl
        exact hne hencoded
      exact ⟨.invalidCommitProposal .differentPayloads, by simp [seenSlot, hother, GroupSlot.result]⟩

/-- A member whose id has a row in the commit log. -/
theorem MemberStep.after_committed {row : CommitRow} (commitSeq : CommitSeq) (hs : Seen setup h g)
    (hstep : MemberStep setup queued g g' slot) (hrow : h.committed queued.proposal.id = some row)
    (hhash : row.proposalHash = setup.sha256 encoded)
    (hsame : ∀ x, setup.logical.encodeProposal queued.proposal = .ok x →
      setup.sha256 x = setup.sha256 encoded → x = encoded)
    (hseenSame : ∀ entry, g.seen.get queued.proposal.id = some entry →
      setup.sha256 entry.encoded = setup.sha256 encoded → entry.encoded = encoded) :
    g'.canonical = g.canonical ∧
      (setup.logical.encodeProposal queued.proposal = .ok encoded → queued.fault = none →
        slot.result commitSeq = .ok ⟨row.commitSeq, .alreadyCommitted, row.submitted⟩) ∧
      (setup.logical.encodeProposal queued.proposal ≠ .ok encoded →
        ∃ error, slot.result commitSeq = .error error) := by
  have hcurrent : g.canonical.history.committed queued.proposal.id = some row := by
    rw [hs.history, hrow]
  cases hstep with
  | unencoded error hencoded =>
    refine ⟨rfl, ?_, fun _ => ⟨_, rfl⟩⟩
    intro heq
    cases hencoded.symm.trans heq
  | failed other error hencoded hseen hfailed =>
    refine ⟨rfl, ?_, fun _ => ⟨_, rfl⟩⟩
    intro heq hfault
    cases hencoded.symm.trans heq
    rw [prepareMember, hfault] at hfailed
    simp only [prepareCommitProposal, committedReceipt_of_row hcurrent hencoded, if_pos hhash,
      ok_bind] at hfailed
    cases hfailed
  | committed other receipt hencoded hseen hreceipt =>
    rw [committedReceipt_of_row hcurrent hencoded] at hreceipt
    split at hreceipt
    next hother =>
      cases hreceipt
      refine ⟨rfl, fun _ _ => rfl, ?_⟩
      intro hne
      rw [hsame other hencoded (hother.symm.trans hhash)] at hencoded
      exact absurd hencoded hne
    · cases hreceipt
  | prepared other commit c hencoded hseen hreceipt hbody =>
    cases (committedReceipt_none hreceipt).symm.trans hcurrent
  | seen other previous hencoded hseen =>
    refine ⟨rfl, ?_⟩
    cases hfound : previous.receipt with
    | none => cases (hs.prepared _ _ hseen hfound).1.symm.trans hrow
    | some receipt =>
      obtain ⟨row', hrow', hhash', rfl⟩ := hs.committed _ _ _ hseen hfound
      cases hrow.symm.trans hrow'
      have hprevious : previous.encoded = encoded :=
        hseenSame previous hseen (hhash'.symm.trans hhash)
      constructor
      · intro heq _
        cases hencoded.symm.trans heq
        simp [seenSlot, hprevious, hfound, GroupSlot.result]
      · intro hne
        have hother : encoded ≠ other := by
          rintro rfl
          exact hne hencoded
        exact ⟨.invalidCommitProposal .differentPayloads,
          by simp [seenSlot, hprevious, hother, GroupSlot.result]⟩

end Group

/-! ## Retention -/

section Retention

variable {Data Op : Type} [DecidableEq Op] {setup : Setup Data Op} {s : Committer Data Op}

theorem groupRecorded_of_ok {group : List (Queued Op)} {final : GroupState Data Op}
    {commitSeq : CommitSeq} {history : History}
    (hfold : group.foldlM (groupMember setup) (GroupState.start s.canonical) = .ok final)
    (hm : Seen setup s.canonical.history final)
    (hfinal : finalizeGroup s.canonical.history final.prepared = .ok (commitSeq, history)) :
    groupRecorded setup s group = final.prepared.map (·.row commitSeq) := by
  rw [groupRecorded, hfold]
  simp only [hm.history, hfinal]

theorem groupRecorded_of_error {group : List (Queued Op)} {error : CommitError}
    (h : commitProposalGroup setup s.canonical s.pins group = .error error) :
    groupRecorded setup s group = [] := by
  rw [groupRecorded]
  rcases bind_eq_error_iff.mp h with hfold | ⟨final, hfold, h⟩
  · rw [hfold]
  · rcases bind_eq_error_iff.mp h with hfinal | ⟨recorded, hfinal, h⟩
    · simp only [hfold, hfinal]
    · cases h

/-- Rows are named by distinct ids, none is newer than the current sequence, and a live
pin keeps every newer row that was ever recorded. -/
structure Retained (s : Committer Data Op) (recorded : List CommitRow) : Prop where
  ids_nodup : (s.canonical.history.rows.map CommitRow.proposalId).Nodup
  le_current : ∀ row ∈ recorded, row.commitSeq ≤ s.canonical.history.current
  kept : ∀ p, s.pins.Alive p → ∀ row ∈ recorded, p < row.commitSeq →
    row ∈ s.canonical.history.rows

omit [DecidableEq Op] in
theorem Retained.fresh (data : Data) : Retained (Committer.fresh Op data) [] where
  ids_nodup := nodup_nil
  le_current := by simp
  kept := by simp

variable {recorded : List CommitRow}

theorem Retained.group {group : List (Queued Op)} (h : Retained s recorded) :
    Retained (s.step setup (.commitGroup group)) (recorded ++ groupRecorded setup s group) := by
  rw [Committer.step]
  cases hrun : commitProposalGroup setup s.canonical s.pins group with
  | error error =>
    have hsame : groupCanonical setup s group = s.canonical := by rw [groupCanonical, hrun]
    rw [hsame, groupRecorded_of_error hrun, append_nil]
    exact h
  | ok result =>
    obtain ⟨c', results⟩ := result
    have hnew : groupCanonical setup s group = c' := by rw [groupCanonical, hrun]
    obtain ⟨final, slots, commitSeq, history, hfold, hmembers, hfinal, rfl, -⟩ :=
      commitProposalGroup_ok hrun
    have hrecorded := groupRecorded_of_ok hfold
      (hmembers.seen (Seen.start _)) hfinal
    obtain ⟨rfl, hle, -, htakes⟩ := finalizeGroup_ok hfinal
    rw [hnew, hrecorded]
    refine ⟨?_, ?_, ?_⟩
    · refine List.Nodup.sublist (List.Sublist.map _ filter_sublist) ?_
      rw [map_append, nodup_append]
      refine ⟨h.ids_nodup, by simpa [Function.comp_def, PreparedRecord.row] using htakes.nodup,
        ?_⟩
      intro id hold id' hnew heq
      obtain ⟨row, hrow, rfl⟩ := mem_map.mp hold
      obtain ⟨row', hrow', rfl⟩ := mem_map.mp hnew
      obtain ⟨record, hrecord, rfl⟩ := mem_map.mp hrow'
      exact htakes.fresh record hrecord row hrow heq
    · intro row hrow
      rcases mem_append.mp hrow with hrow | hrow
      · exact le_trans (h.le_current row hrow) hle
      · obtain ⟨record, -, rfl⟩ := mem_map.mp hrow
        exact le_refl _
    · intro p hp row hrow hlt
      refine History.mem_rows_prune.mpr
        ⟨?_, lt_of_le_of_lt (HistoryPins.frontier_le hp _) hlt⟩
      rcases mem_append.mp hrow with hrow | hrow
      · exact mem_append_left _ (h.kept p hp row hrow hlt)
      · exact mem_append_right _ hrow

theorem Retained.step (h : Retained s recorded) (event : CommitterEvent Op) :
    Retained (s.step setup event) (recorded ++ eventRecorded setup s event) := by
  cases event with
  | commitGroup group => exact h.group
  | captureSnapshot =>
    rw [eventRecorded, append_nil]
    refine ⟨h.ids_nodup, h.le_current, ?_⟩
    intro p hp row hrow hlt
    rcases HistoryPins.alive_register hp with rfl | hp
    -- The pin is registered at the current sequence, which no row has passed.
    · exact absurd hlt (not_lt.mpr (h.le_current row hrow))
    · exact h.kept p hp row hrow hlt
  | dropPin commitSeq =>
    rw [eventRecorded, append_nil]
    exact ⟨h.ids_nodup, h.le_current, fun p hp => h.kept p (HistoryPins.alive_release hp)⟩
  | crash =>
    rw [eventRecorded, append_nil]
    refine ⟨h.ids_nodup, h.le_current, ?_⟩
    intro p hp
    cases hp

theorem Retained.run (h : Retained s recorded) (events : List (CommitterEvent Op)) :
    Retained (s.run setup events) (recorded ++ s.recorded setup events) := by
  induction events generalizing s recorded with
  | nil => simpa [Committer.run, Committer.recorded] using h
  | cons event events ih =>
    rw [Committer.recorded, ← append_assoc]
    exact ih (h.step event)

end Retention

/-! ## Resubmission -/

section Resubmission

variable {Data Op : Type} [DecidableEq Op] {setup : Setup Data Op} {s : Committer Data Op}

/-- The two ways a group is answered. -/
theorem groupTrace_cases (setup : Setup Data Op) (s : Committer Data Op)
    (group : List (Queued Op)) :
    (∃ error, groupTrace setup s group = group.map fun queued =>
        ⟨queued, s.pins, s.canonical, s.canonical, true, .error error⟩) ∨
      ∃ final slots commitSeq history,
        Members setup (GroupState.start s.canonical) group slots final ∧
        finalizeGroup s.canonical.history final.prepared = .ok (commitSeq, history) ∧
        groupRecorded setup s group = final.prepared.map (·.row commitSeq) ∧
        groupTrace setup s group =
          submissions setup s.pins commitSeq (GroupState.start s.canonical) group slots := by
  rw [groupTrace]
  cases hrun : commitProposalGroup setup s.canonical s.pins group with
  | error error => exact .inl ⟨error, rfl⟩
  | ok result =>
    obtain ⟨c', results⟩ := result
    obtain ⟨final, slots, commitSeq, history, hfold, hmembers, hfinal, -, rfl⟩ :=
      commitProposalGroup_ok hrun
    exact .inr ⟨final, slots, commitSeq, history, hmembers, hfinal,
      groupRecorded_of_ok hfold (hmembers.seen (Seen.start _)) hfinal, rfl⟩

variable {group : List (Queued Op)}

/-- Inside one group. -/
theorem Members.pairwise_resubmits {g final : GroupState Data Op} {slots : List GroupSlot}
    {pins : HistoryPins} {commitSeq : CommitSeq} {h : History}
    (hm : Members setup g group slots final) (hs : Seen setup h g) :
    (submissions setup pins commitSeq g group slots).Pairwise (Resubmits setup) := by
  induction hm with
  | nil g => exact List.Pairwise.nil
  | @cons g g' final queued rest slot slots hmember hstep hrest ih =>
    rw [submissions_cons hmember]
    refine pairwise_cons.mpr ⟨?_, ih (hs.step hstep)⟩
    rintro b hb body receipt - ⟨hresult, happlied⟩ hid -
    obtain ⟨encoded, commit, hencoded, -, -, rfl, hget⟩ :=
      hstep.of_applied hs hresult happlied
    obtain ⟨before, after, slot', front, frontSlots, rest', restSlots, hfront, hb', -, -, heq⟩ :=
      hrest.mem_submissions hb
    have hseen := hfront.seen_mono hget
    rw [← hid] at hseen
    obtain ⟨hsame, hbytes, hother⟩ := hb'.after_prepared commitSeq hseen
    rw [heq]
    dsimp only at hencoded ⊢
    rw [hencoded]
    exact ⟨hsame, fun h _ => hbytes h, hother⟩

variable {a : Submission Data Op}

/-- A transaction that was applied left a row that is newer than its base. -/
theorem applied_recorded {body : TransactionProposal Op} {receipt : CommitReceipt}
    (ha : a ∈ groupTrace setup s group) (hbody : a.queued.proposal.body = .transaction body)
    (happlied : a.AppliedAs receipt) :
    ∃ encoded row, row ∈ groupRecorded setup s group ∧
      setup.logical.encodeProposal a.queued.proposal = .ok encoded ∧
      row.proposalId = a.queued.proposal.id ∧ row.proposalHash = setup.sha256 encoded ∧
      receipt = ⟨row.commitSeq, .applied, row.submitted⟩ ∧
      body.snapshot.commitSeq < row.commitSeq := by
  rcases groupTrace_cases setup s group with ⟨error, htrace⟩ |
    ⟨final, slots, commitSeq, history, hm, hfinal, hrecorded, htrace⟩
  · rw [htrace] at ha
    obtain ⟨queued, -, rfl⟩ := mem_map.mp ha
    cases happlied.1
  · rw [htrace] at ha
    obtain ⟨before, after, slot, front, frontSlots, rest, restSlots, hfront, hstep, hrest, -,
      heq⟩ := hm.mem_submissions ha
    have hs := hfront.seen (Seen.start s.canonical)
    have hresult : slot.result commitSeq = .ok receipt := by
      rw [← happlied.1, heq]
    obtain ⟨encoded, commit, hencoded, hprepared, hmem, rfl, -⟩ :=
      hstep.of_applied hs hresult happlied.2
    obtain ⟨-, -, encoded', hencoded', hid, hhash⟩ := prepareBody_ok hprepared
    cases hencoded.symm.trans hencoded'
    have hcommit := hrest.prepared_mono hmem
    rw [hrecorded]
    refine ⟨encoded, commit.row commitSeq, mem_map.mpr ⟨commit, hcommit, rfl⟩, hencoded, hid,
      hhash, rfl, ?_⟩
    have hbase : body.snapshot.commitSeq ≤ before.canonical.history.current := by
      rw [prepareBody, hbody] at hprepared
      exact (prepareTransaction_ok hprepared).1
    have hnext := (finalizeGroup_ok hfinal).2.2.1 (ne_nil_of_mem hcommit)
    rw [hs.history, Fin.le_def] at hbase
    rw [Fin.lt_def]
    change body.snapshot.commitSeq.val < commitSeq.val
    omega

/-- What a submission gets whose id has a retained row. -/
def SettledBy (setup : Setup Data Op) (row : CommitRow) (encoded : Bytes)
    (b : Submission Data Op) : Prop :=
  b.after = b.before ∧
    (setup.logical.encodeProposal b.queued.proposal = .ok encoded → ¬ b.Interrupted →
      b.result = .ok ⟨row.commitSeq, .alreadyCommitted, row.submitted⟩) ∧
    (setup.logical.encodeProposal b.queued.proposal ≠ .ok encoded →
      ∃ error, b.result = .error error)

variable {row : CommitRow} {encoded : Bytes} {b : Submission Data Op}

theorem groupTrace_settled (hnodup : (s.canonical.history.rows.map CommitRow.proposalId).Nodup)
    (hrow : row ∈ s.canonical.history.rows) (hhash : row.proposalHash = setup.sha256 encoded)
    (hsame : ∀ q ∈ group, ∀ x, setup.logical.encodeProposal q.proposal = .ok x →
      setup.sha256 x = setup.sha256 encoded → x = encoded) (hb : b ∈ groupTrace setup s group)
    (hid : b.queued.proposal.id = row.proposalId) : SettledBy setup row encoded b := by
  rcases groupTrace_cases setup s group with ⟨error, htrace⟩ |
    ⟨final, slots, commitSeq, history, hm, hfinal, hrecorded, htrace⟩
  · rw [htrace] at hb
    obtain ⟨queued, -, rfl⟩ := mem_map.mp hb
    exact ⟨rfl, fun _ hnot => absurd (Or.inl rfl) hnot, fun _ => ⟨error, rfl⟩⟩
  · rw [htrace] at hb
    obtain ⟨before, after, slot, front, frontSlots, rest, restSlots, hfront, hstep, hrest, rfl,
      heq⟩ := hm.mem_submissions hb
    have hs := hfront.seen (Seen.start s.canonical)
    have hcommitted : s.canonical.history.committed b.queued.proposal.id = some row :=
      History.committed_eq_some hnodup hrow hid.symm
    obtain ⟨hunchanged, hbytes, hother⟩ := hstep.after_committed commitSeq hs
      hcommitted hhash (hsame b.queued (by simp)) (by
        intro entry hentry heq
        rcases hfront.seen_source hentry with hnone | ⟨q, hq, hencoded⟩
        · cases hnone
        · exact hsame q (mem_append_left _ hq) _ hencoded heq)
    rw [SettledBy, heq]
    refine ⟨hunchanged, fun h hnot => hbytes h ?_, hother⟩
    have hfault : ¬ b.queued.fault.isSome := fun h => hnot (Or.inr h)
    simpa using hfault

variable {events : List (CommitterEvent Op)} {recorded : List CommitRow}

/-- In every later group of a run. -/
theorem trace_settled {p : CommitSeq} (hretained : Retained s recorded) (hrow : row ∈ recorded)
    (hlt : p < row.commitSeq) (hhash : row.proposalHash = setup.sha256 encoded)
    (hsame : ∀ q ∈ queuedProposals events, ∀ x, setup.logical.encodeProposal q = .ok x →
      setup.sha256 x = setup.sha256 encoded → x = encoded) (hb : b ∈ s.trace setup events)
    (hid : b.queued.proposal.id = row.proposalId) (halive : b.pins.Alive p) :
    SettledBy setup row encoded b := by
  induction events generalizing s recorded with
  | nil => cases hb
  | cons event events ih =>
    rw [Committer.trace] at hb
    rcases mem_append.mp hb with hb | hb
    · cases event with
      | commitGroup group =>
        have hpins : b.pins = s.pins := by
          rcases groupTrace_cases setup s group with ⟨error, htrace⟩ |
            ⟨final, slots, commitSeq, history, hm, -, -, htrace⟩
          · rw [eventTrace, htrace] at hb
            obtain ⟨queued, -, rfl⟩ := mem_map.mp hb
            rfl
          · rw [eventTrace, htrace] at hb
            obtain ⟨_, _, _, _, _, _, _, -, -, -, -, heq⟩ := hm.mem_submissions hb
            rw [heq]
        refine groupTrace_settled hretained.ids_nodup
          (hretained.kept p (hpins ▸ halive) row hrow hlt) hhash ?_ hb hid
        intro q hq
        refine hsame q.proposal (mem_flatMap.mpr ⟨_, mem_cons_self, ?_⟩)
        exact mem_map_of_mem hq
      | captureSnapshot => cases hb
      | dropPin commitSeq => cases hb
      | crash => cases hb
    · refine ih (hretained.step event) (mem_append_left _ hrow) ?_ hb
      intro q hq
      obtain ⟨event', hevent', hq⟩ := mem_flatMap.mp hq
      exact hsame q (mem_flatMap.mpr ⟨event', mem_cons_of_mem _ hevent', hq⟩)

theorem groupTrace_queued (ha : a ∈ groupTrace setup s group) : a.queued ∈ group := by
  rcases groupTrace_cases setup s group with ⟨error, htrace⟩ |
    ⟨final, slots, commitSeq, history, hm, -, -, htrace⟩
  · rw [htrace] at ha
    obtain ⟨queued, hqueued, rfl⟩ := mem_map.mp ha
    exact hqueued
  · rw [htrace] at ha
    obtain ⟨_, _, _, front, _, rest, _, -, -, -, rfl, -⟩ := hm.mem_submissions ha
    simp

omit [DecidableEq Op] in
theorem NoCollision.tail {event : CommitterEvent Op}
    (h : NoCollision setup (queuedProposals (event :: events))) :
    NoCollision setup (queuedProposals events) := by
  intro p hp q hq
  exact h p (mem_append_right _ hp) q (mem_append_right _ hq)

theorem pairwise_trace (hretained : Retained s recorded)
    (hsha : NoCollision setup (queuedProposals events)) :
    (s.trace setup events).Pairwise (Resubmits setup) := by
  induction events generalizing s recorded with
  | nil => exact List.Pairwise.nil
  | cons event events ih =>
    rw [Committer.trace]
    refine pairwise_append.mpr ⟨?_, ih (hretained.step event) hsha.tail, ?_⟩
    · cases event with
      | commitGroup group =>
        rcases groupTrace_cases setup s group with ⟨error, htrace⟩ |
          ⟨final, slots, commitSeq, history, hm, -, -, htrace⟩
        · rw [eventTrace, htrace, pairwise_map]
          refine pairwise_of_forall fun a b body receipt _ happlied => ?_
          cases happlied.1
        · rw [eventTrace, htrace]
          exact hm.pairwise_resubmits (Seen.start s.canonical)
      | captureSnapshot => exact List.Pairwise.nil
      | dropPin commitSeq => exact List.Pairwise.nil
      | crash => exact List.Pairwise.nil
    · cases event with
      | commitGroup group =>
        intro a ha b hb body receipt hbody happlied hid halive
        obtain ⟨encoded, row, hrow, hencoded, hrowId, hhash, rfl, hlt⟩ :=
          applied_recorded ha hbody happlied
        have hqueued : a.queued.proposal ∈ queuedProposals (.commitGroup group :: events) :=
          mem_append_left _ (mem_map_of_mem (groupTrace_queued ha))
        have hafter : Retained (s.step setup (.commitGroup group))
            (recorded ++ groupRecorded setup s group) := hretained.group
        rw [hencoded]
        refine trace_settled hafter (mem_append_right _ hrow) hlt hhash ?_ hb
          (hid.trans hrowId.symm) halive
        intro q hq x hx heq
        exact hsha q (mem_append_right _ hq) _ hqueued x encoded hx hencoded heq
      | captureSnapshot => simp [eventTrace]
      | dropPin commitSeq => simp [eventTrace]
      | crash => simp [eventTrace]

theorem applied_of_changed (ha : a ∈ s.trace setup events) (hchanged : a.after ≠ a.before) :
    ∃ receipt, a.AppliedAs receipt := by
  induction events generalizing s with
  | nil => cases ha
  | cons event events ih =>
    rw [Committer.trace] at ha
    rcases mem_append.mp ha with ha | ha
    · cases event with
      | commitGroup group =>
        rcases groupTrace_cases setup s group with ⟨error, htrace⟩ |
          ⟨final, slots, commitSeq, history, hm, -, -, htrace⟩
        · rw [eventTrace, htrace] at ha
          obtain ⟨queued, -, rfl⟩ := mem_map.mp ha
          exact absurd rfl hchanged
        · rw [eventTrace, htrace] at ha
          obtain ⟨before, after, slot, _, _, _, _, -, hstep, -, -, heq⟩ := hm.mem_submissions ha
          rw [heq] at hchanged ⊢
          cases slot with
          | prepared submitted => exact ⟨⟨commitSeq, .applied, submitted⟩, rfl, rfl⟩
          | duplicatePrepared submitted =>
            exact absurd (hstep.canonical_eq (by simp)) hchanged
          | complete result => exact absurd (hstep.canonical_eq (by simp)) hchanged
      | captureSnapshot => cases ha
      | dropPin commitSeq => cases ha
      | crash => cases ha
    · exact ih ha

/-- **Retention and idempotence.**  In every run over a database that starts empty: a live
pin keeps every row that was recorded after it; a submission that changes the database was
answered `Applied`; and once a transaction was applied, every later submission under its
id, in its group or a later one, changes nothing while its base is pinned, and is answered
with its receipt or, for other bytes, with an error. -/
theorem resubmissions_settled (setup : Setup Data Op) (data : Data)
    (events : List (CommitterEvent Op))
    (hsha : NoCollision setup (queuedProposals events)) :
    (∀ p, ((Committer.fresh Op data).run setup events).pins.Alive p →
        ∀ row ∈ (Committer.fresh Op data).recorded setup events, p < row.commitSeq →
          row ∈ ((Committer.fresh Op data).run setup events).canonical.history.rows) ∧
      (∀ a ∈ (Committer.fresh Op data).trace setup events, a.after ≠ a.before →
        ∃ receipt, a.AppliedAs receipt) ∧
      ((Committer.fresh Op data).trace setup events).Pairwise (Resubmits setup) := by
  have hfresh : Retained (Committer.fresh Op data) [] := Retained.fresh data
  refine ⟨?_, fun a ha => applied_of_changed ha, pairwise_trace hfresh hsha⟩
  have hrun : Retained ((Committer.fresh Op data).run setup events)
      ([] ++ (Committer.fresh Op data).recorded setup events) := hfresh.run events
  rw [nil_append] at hrun
  exact hrun.kept

end Resubmission

/-! ## A run with resubmissions -/

namespace Resubmitting

/-- A sixteen byte id, version 4 and variant RFC 4122. -/
def id : ProposalId := ⟨[0, 0, 0, 0, 0, 0, 64, 0, 128, 0, 0, 0, 0, 0, 0, 0], by decide⟩

/-- The key of every manifest. -/
def key : Key := Key.ofByte 1

/-- A cipher that is not used: the space is in the clear. -/
def crypto : Client.Crypto where
  hmac _ _ := ByteArr.zero 32
  hkdf _ _ _ := ByteArr.zero 32
  encrypt _ _ _ _ := none
  decrypt _ _ _ _ _ := none

/-- Operations without effect; a proposal is encoded as its id. -/
def logical : Logical Unit Unit where
  toHomebase _ := .ok ([], [])
  encode _ := .ok []
  transactionKey _ := key
  repairSpec _ := none
  captureRepair _ _ := .ok ⟨[], []⟩
  apply _ data := .ok data
  revert _ _ data := .ok data
  encodeProposal proposal := .ok proposal.id.bytes

/-- A committer for them. -/
def setup : Setup Unit Unit where
  sha256 _ := ByteArr.zero 32
  logical := logical
  crypto := crypto
  mode := .plaintext
  device := ByteArr.zero 16

/-- A transaction with one operation, based on the empty database. -/
def proposal : CommitProposal Unit :=
  ⟨id, .transaction {
    snapshot := ⟨0, 0, Client.OplogCursors.default⟩
    isolation := .snapshot
    compiled := ⟨⟨id, [()]⟩, [.set key []], [], [()]⟩
    footprint := ConflictFootprint.new }⟩

/-- The transaction in the queue. -/
def queued : Queued Unit := ⟨proposal, [ByteArr.zero 24], none⟩

/-- It is submitted twice in one group and once more in the next, with its base pinned. -/
def events : List (CommitterEvent Unit) :=
  [.captureSnapshot, .commitGroup [queued, queued], .commitGroup [queued]]

theorem noCollision : NoCollision setup (queuedProposals events) := by
  have hsame : ∀ p ∈ queuedProposals events, p = proposal := by
    simp [queuedProposals, events, queued]
  intro p hp q hq x y hx hy _
  rw [hsame p hp] at hx
  rw [hsame q hq] at hy
  exact Except.ok.inj (hx.symm.trans hy)

/-- One application, then its receipt twice. -/
theorem submitted_thrice :
    ((Committer.fresh Unit ()).trace setup events).map Submission.result =
        [.ok ⟨1, .applied, some 1⟩, .ok ⟨1, .alreadyCommitted, some 1⟩,
          .ok ⟨1, .alreadyCommitted, some 1⟩] ∧
      ((Committer.fresh Unit ()).run setup events).pins.Alive 0 ∧
      ((Committer.fresh Unit ()).trace setup events).Pairwise (Resubmits setup) :=
  ⟨by decide +kernel, by unfold HistoryPins.Alive; decide +kernel,
    (resubmissions_settled setup () events noCollision).2.2⟩

end Resubmitting

end Homebase.Multilite
