import Homebase.Properties.Retention
import Homebase.Refine.Journal

set_option autoImplicit false

/-!
# Properties: the pending journal mirrors the active window

In every run of the committer the pending journal has one row for each commit of the
active window, with the transaction that was submitted there, and the repair jobs are
those of its destructive operations.  So a rejection always finds the journal it expects,
and acknowledgements and rejections dispose of exactly what they name.
-/

namespace Homebase.Multilite

open Foundation Homebase.Core
open Client (ValueNonce)

/-! ## Where rows come from -/

section Origins

variable {Data Op : Type}

/-- The transaction of each submission so far, after one was answered with a sequence. -/
def withOrigin (origins : OrdMap DeviceSeq (Transaction Op)) (proposal : CommitProposal Op)
    (submitted : Option DeviceSeq) : OrdMap DeviceSeq (Transaction Op) :=
  match proposal.body, submitted with
  | .transaction body, some seq => origins.insert seq body.compiled.logical
  | _, _ => origins

theorem withOrigin_transaction {origins : OrdMap DeviceSeq (Transaction Op)}
    {proposal : CommitProposal Op} {body : TransactionProposal Op}
    (h : proposal.body = .transaction body) (seq : DeviceSeq) :
    withOrigin origins proposal (some seq) = origins.insert seq body.compiled.logical := by
  simp only [withOrigin, h]

theorem withOrigin_none (origins : OrdMap DeviceSeq (Transaction Op))
    (proposal : CommitProposal Op) : withOrigin origins proposal none = origins := by
  unfold withOrigin
  split <;> simp_all

/-- The same, after the answer to a submission. -/
def originStep (origins : OrdMap DeviceSeq (Transaction Op)) (a : Submission Data Op) :
    OrdMap DeviceSeq (Transaction Op) :=
  match a.result with
  | .ok ⟨_, .applied, submitted⟩ => withOrigin origins a.queued.proposal submitted
  | _ => origins

/-- Which transaction each sequence was committed from, as a run was answered. -/
def originsOf (trace : List (Submission Data Op)) : OrdMap DeviceSeq (Transaction Op) :=
  trace.foldl originStep OrdMap.empty

/-- What a submission does to the journal, the sidecars and the cursors. -/
structure Disposes (setup : Setup Data Op) (a : Submission Data Op) : Prop where
  /-- A rejection that is prepared now finds the journal it expects. -/
  authentic : ∀ through, U64.checkedSub a.before.records.oplogCursors.tail 1 = some through →
    prepareRejection setup a.before
        (a.before.records.oplogRows a.before.records.oplogCursors.neck through) ≠
      .error (.invalidDatabase .pendingMismatch)
  /-- An acknowledgement removes the rows and the jobs up to it, and no others. -/
  accepted : ∀ body receipt, a.queued.proposal.body = .acceptSubmissions body →
    a.AppliedAs receipt →
    (∀ seq, a.after.pending.get seq =
      if seq ≤ body.through then none else a.before.pending.get seq) ∧
    ∀ id, ((∃ seq transaction spec, a.before.pending.get seq = some transaction ∧
          seq ≤ body.through ∧ spec ∈ setup.logical.repairSpecs transaction ∧ spec.id = id) →
        a.after.jobs.get id = none) ∧
      ((∀ seq transaction spec, a.before.pending.get seq = some transaction →
          seq ≤ body.through → spec ∈ setup.logical.repairSpecs transaction → spec.id ≠ id) →
        a.after.jobs.get id = a.before.jobs.get id)
  /-- A rejection empties the journal and the sidecars and closes the window. -/
  rejected : ∀ body receipt, a.queued.proposal.body = .rejectSubmissions body →
    a.AppliedAs receipt →
    a.after.pending = OrdMap.empty ∧ a.after.jobs = OrdMap.empty ∧
      a.after.records.oplogCursors.head = a.before.records.oplogCursors.head ∧
      a.after.records.oplogCursors.neck = a.before.records.oplogCursors.tail ∧
      a.after.records.oplogCursors.tail.val = a.before.records.oplogCursors.tail.val + 1
  /-- A member that fails leaves everything as it was. -/
  failed : ∀ error, a.result = .error error → a.after = a.before

end Origins

/-! ## One member -/

section Member

variable {Data Op : Type} [DecidableEq Op] {setup : Setup Data Op}
  {origins : OrdMap DeviceSeq (Transaction Op)} {c c' : Canonical Data Op}
  {proposal : CommitProposal Op}

/-- Every prepared member keeps the journal. -/
theorem Journal.prepareBody {accepted : List WriteRegion} {nonces : List ValueNonce}
    {commit : PreparedRecord} (h : Journal setup origins c)
    (hbody : prepareBody setup c proposal accepted nonces = .ok (commit, c')) :
    Journal setup (withOrigin origins proposal commit.submitted) c' := by
  rw [Multilite.prepareBody] at hbody
  split at hbody
  next body hkind =>
    obtain ⟨-, -, jobs, data, encoded, seq, records, hjobs, -, hsubmit, -, rfl, rfl⟩ :=
      prepareTransaction_ok hbody
    obtain ⟨hseq, op, tail, hcommit, -, htail, hoplog, hcursors⟩ := submit_ok hsubmit
    rw [withOrigin_transaction hkind]
    exact h.insert hjobs hseq hcommit htail hoplog hcursors
  next body hkind =>
    obtain ⟨-, -, -, data, encoded, records, writes, hmark, -, rfl, rfl⟩ := prepareApply_ok hbody
    obtain ⟨hoplog, hcursors⟩ := markAdmitsApplied_ok hmark
    rw [withOrigin_none]
    exact h.congr rfl rfl hoplog hcursors
  next body hkind =>
    obtain ⟨hexpected, hneck, -, data, encoded, records, writes, hrollback, -, -, rfl, rfl⟩ :=
      prepareReject_ok hkind hbody
    obtain ⟨hoplog, tail, htail, hcursors⟩ := rollbackIfUnchanged_ok hrollback hexpected hneck
    rw [← hexpected] at hoplog htail hcursors
    rw [withOrigin_none]
    exact h.reject htail hoplog hcursors
  next body hkind =>
    obtain ⟨hneck, htail, encoded, records, htrim, -, rfl, rfl⟩ := prepareAccept_ok hkind hbody
    obtain ⟨hoplog, next, hnext, hcursors⟩ := trimOplog_ok htrim hneck h.head_le htail
    rw [withOrigin_none]
    exact h.accept hnext hneck htail hoplog hcursors
  next body hkind =>
    obtain ⟨-, encoded, records, happend, -, rfl, rfl⟩ := prepareAppend_ok hbody
    obtain ⟨hoplog, hcursors⟩ := appendAdmits_ok happend
    rw [withOrigin_none]
    exact h.congr rfl rfl hoplog hcursors

omit [DecidableEq Op] in
/-- The window is authenticated by the journal. -/
theorem Journal.authentic {through : DeviceSeq} (h : Journal setup origins c)
    (hthrough : U64.checkedSub c.records.oplogCursors.tail 1 = some through) :
    prepareRejection setup c (c.records.oplogRows c.records.oplogCursors.neck through) ≠
      .error (.invalidDatabase .pendingMismatch) := by
  rw [prepareRejection, if_neg (not_not.mpr (h.pending_eq_commitSeqs hthrough))]
  intro herror
  rcases bind_eq_error_iff.mp herror with herror | ⟨compiled, -, herror⟩
  · generalize c.pending.entries.mapM (fun row => setup.logical.compile row.2) = compiled at herror
    cases compiled <;> cases herror
  · dsimp only at herror
    split at herror <;> cases herror

end Member

/-! ## Runs -/

section Runs

variable {Data Op : Type} [DecidableEq Op] {setup : Setup Data Op}
  {origins : OrdMap DeviceSeq (Transaction Op)}

/-- What an applied member that is not a transaction leaves. -/
theorem Journal.disposes {g g' : GroupState Data Op} {h : History} {queued : Queued Op}
    {slot : GroupSlot} {pins : HistoryPins} {commitSeq : CommitSeq}
    (hj : Journal setup origins g.canonical) (hs : Seen setup h g)
    (hstep : MemberStep setup queued g g' slot) :
    Disposes setup
      ⟨queued, pins, g.canonical, g'.canonical, false, slot.result commitSeq⟩ where
  authentic := fun through hthrough => hj.authentic hthrough
  accepted := by
    intro body receipt hkind happlied
    obtain ⟨encoded, commit, -, hprepared, -, -, -⟩ :=
      hstep.of_applied hs happlied.1 happlied.2
    rw [Multilite.prepareBody, show queued.proposal.body = .acceptSubmissions body from hkind]
      at hprepared
    obtain ⟨-, -, encoded', records, -, -, -, heq⟩ := prepareAccept_ok hkind hprepared
    rw [heq]
    refine ⟨fun seq => Journal.get_accepted, fun id => ⟨?_, ?_⟩⟩
    · intro hnamed
      rw [get_eraseAll, if_pos (Journal.mem_repairIds_iff.mpr hnamed)]
    · intro hother
      rw [get_eraseAll, if_neg]
      intro hmem
      obtain ⟨seq, transaction, spec, hget, hle, hspec, hid⟩ := Journal.mem_repairIds_iff.mp hmem
      exact hother seq transaction spec hget hle hspec hid
  rejected := by
    intro body receipt hkind happlied
    obtain ⟨encoded, commit, -, hprepared, -, -, -⟩ :=
      hstep.of_applied hs happlied.1 happlied.2
    rw [Multilite.prepareBody, show queued.proposal.body = .rejectSubmissions body from hkind]
      at hprepared
    obtain ⟨hexpected, hneck, -, data, encoded', records, writes, hrollback, -, -, -, heq⟩ :=
      prepareReject_ok hkind hprepared
    obtain ⟨-, tail, htail, hcursors⟩ := rollbackIfUnchanged_ok hrollback hexpected hneck
    rw [heq]
    refine ⟨rfl, rfl, ?_, ?_, ?_⟩
    · rw [hcursors, ← hexpected]
    · rw [hcursors, ← hexpected]
    · rw [hcursors, htail, ← hexpected]
  failed := by
    intro error herror
    cases slot with
    | prepared submitted => cases herror
    | duplicatePrepared submitted => cases herror
    | complete result => exact hstep.canonical_eq (by simp)

theorem Members.journal {g final : GroupState Data Op} {group : List (Queued Op)}
    {slots : List GroupSlot} {pins : HistoryPins} {commitSeq : CommitSeq} {h : History}
    (hm : Members setup g group slots final) (hj : Journal setup origins g.canonical)
    (hs : Seen setup h g) :
    Journal setup ((submissions setup pins commitSeq g group slots).foldl originStep origins)
        final.canonical ∧
      ∀ a ∈ submissions setup pins commitSeq g group slots, Disposes setup a := by
  induction hm generalizing origins with
  | nil g =>
    refine ⟨hj, ?_⟩
    intro a ha
    cases ha
  | @cons g g' final queued rest slot slots hmember hstep hrest ih =>
    rw [submissions_cons hmember, List.foldl_cons]
    have hnext : Journal setup (originStep origins
        ⟨queued, pins, g.canonical, g'.canonical, false, slot.result commitSeq⟩)
        g'.canonical := by
      by_cases happlied : ∃ receipt, slot.result commitSeq = .ok receipt ∧
          receipt.disposition = .applied
      · obtain ⟨receipt, hresult, happlied⟩ := happlied
        obtain ⟨encoded, commit, -, hprepared, -, rfl, -⟩ := hstep.of_applied hs hresult happlied
        simp only [originStep, hresult]
        exact hj.prepareBody hprepared
      · have hsame : g'.canonical = g.canonical := by
          refine hstep.canonical_eq ?_
          rintro submitted rfl
          exact happlied ⟨⟨commitSeq, .applied, submitted⟩, rfl, rfl⟩
        rw [hsame]
        rw [originStep]
        split
        next seq submitted hresult =>
          exact absurd ⟨⟨seq, .applied, submitted⟩, hresult, rfl⟩ happlied
        · exact hj
    obtain ⟨hfinal, hdisposes⟩ := ih hnext (hs.step hstep)
    refine ⟨hfinal, ?_⟩
    intro a ha
    rcases List.mem_cons.mp ha with rfl | ha
    · exact hj.disposes hs hstep
    · exact hdisposes a ha

/-- One group. -/
theorem Journal.group {s : Committer Data Op} (hj : Journal setup origins s.canonical)
    (group : List (Queued Op)) :
    Journal setup ((groupTrace setup s group).foldl originStep origins)
        (groupCanonical setup s group) ∧
      ∀ a ∈ groupTrace setup s group, Disposes setup a := by
  rw [groupTrace, groupCanonical]
  cases hrun : commitProposalGroup setup s.canonical s.pins group with
  | error error =>
    dsimp only
    constructor
    · have hsame : ∀ l : List (Queued Op), (l.map fun queued => (⟨queued, s.pins, s.canonical,
          s.canonical, true, .error error⟩ : Submission Data Op)).foldl originStep origins =
          origins := by
        intro l
        induction l with
        | nil => rfl
        | cons queued rest ih => exact ih
      rw [hsame]
      exact hj
    · intro a ha
      obtain ⟨queued, -, rfl⟩ := List.mem_map.mp ha
      refine ⟨fun through hthrough => hj.authentic hthrough, ?_, ?_, fun _ _ => rfl⟩
      · intro body receipt _ happlied
        cases happlied.1
      · intro body receipt _ happlied
        cases happlied.1
  | ok result =>
    obtain ⟨c', results⟩ := result
    obtain ⟨final, slots, commitSeq, history, -, hmembers, -, rfl, rfl⟩ :=
      commitProposalGroup_ok hrun
    obtain ⟨hfinal, hdisposes⟩ := @Members.journal Data Op _ setup origins _ _ _ _ s.pins commitSeq _
      hmembers hj (Seen.start s.canonical)
    exact ⟨hfinal.congr rfl rfl rfl rfl, hdisposes⟩

theorem Journal.run {s : Committer Data Op} (hj : Journal setup origins s.canonical)
    (events : List (CommitterEvent Op)) :
    Journal setup ((s.trace setup events).foldl originStep origins)
        (s.run setup events).canonical ∧
      ∀ a ∈ s.trace setup events, Disposes setup a := by
  induction events generalizing s origins with
  | nil => exact ⟨hj, by simp [Committer.trace]⟩
  | cons event events ih =>
    have hstep : Journal setup ((eventTrace setup s event).foldl originStep origins)
        (s.step setup event).canonical ∧ ∀ a ∈ eventTrace setup s event, Disposes setup a := by
      cases event with
      | commitGroup group => exact hj.group group
      | captureSnapshot => exact ⟨hj, by simp [eventTrace]⟩
      | dropPin commitSeq => exact ⟨hj, by simp [eventTrace]⟩
      | crash => exact ⟨hj, by simp [eventTrace]⟩
    obtain ⟨hrun, hdisposes⟩ := ih hstep.1
    rw [Committer.trace, List.foldl_append]
    refine ⟨hrun, ?_⟩
    intro a ha
    rcases List.mem_append.mp ha with ha | ha
    · exact hstep.2 a ha
    · exact hdisposes a ha

/-- **The journal mirrors the window.**  In every run over a database that starts empty,
the pending journal and the repair jobs are those of the active window, and every
submission disposes of exactly what it names. -/
theorem journal_mirrors_window (setup : Setup Data Op) (data : Data)
    (events : List (CommitterEvent Op)) :
    Journal setup (originsOf ((Committer.fresh Op data).trace setup events))
        ((Committer.fresh Op data).run setup events).canonical ∧
      ∀ a ∈ (Committer.fresh Op data).trace setup events, Disposes setup a := by
  have hfresh : Journal setup OrdMap.empty (Committer.fresh Op data).canonical :=
    Journal.fresh data
  exact hfresh.run events

end Runs

end Homebase.Multilite
