import Homebase.Client.Session
import Homebase.Properties.Grouping
import Homebase.Refine.Assertions

set_option autoImplicit false

/-!
# Properties: the first committer wins

A transaction is checked twice.  The committer compares what it asserts with every row
that was recorded after its base, which a pin keeps; the server compares the assertions
of its submission with the admissions of other devices.  Together they leave no write
between the base of a transaction and the transaction itself.
-/

namespace Homebase.Multilite

open Foundation Homebase.Core Server Ledger Refine List
open Client (DeviceOp SpaceRecords ValueNonce admissionBatch)

/-! ## The submission of a transaction -/

/-- Whatever a transaction asserts lies under an assertion of its submission, which bounds
it by the admissions its base had applied. -/
theorem exists_assertion {Data Op : Type} {setup : Setup Data Op} {body : TransactionProposal Op}
    {asserted : Key} (hasserted : asserted ∈ body.footprint.assertedKeys body.isolation)
    {assertions : List RangeAssert}
    (hencoded : (body.footprint.plan body.isolation
      body.snapshot.authorityAppliedThrough).mapM
        (Client.encodeAssert setup.crypto setup.mode) = .ok assertions) :
    ∃ encoded, setup.mode.encodeKey setup.crypto asserted = .ok encoded ∧
      ∃ assertion ∈ assertions, assertion.upto = body.snapshot.authorityAppliedThrough ∧
        encoded.startsWith assertion.assertPrefix = true := by
  obtain ⟨ancestor, hmem, hstarts⟩ := covered_selected hasserted
  obtain ⟨encoded, encodedAncestor, hkey, hancestor, hencodedStarts⟩ :=
    encodeKey_startsWith setup.crypto setup.mode hstarts
  have hplan : (⟨ancestor, body.snapshot.authorityAppliedThrough⟩ : RangeAssert) ∈
      body.footprint.plan body.isolation body.snapshot.authorityAppliedThrough :=
    mem_map_of_mem hmem
  have hone : Client.encodeAssert setup.crypto setup.mode
      ⟨ancestor, body.snapshot.authorityAppliedThrough⟩ =
        .ok ⟨encodedAncestor, body.snapshot.authorityAppliedThrough⟩ := by
    simp only [Client.encodeAssert, hancestor, ok_bind]
  obtain ⟨assertion, hassertion, heq⟩ := mem_of_mapM hencoded hplan
  cases hone.symm.trans heq
  exact ⟨encoded, hkey, _, hassertion, rfl, hencodedStarts⟩

/-! ## The local side -/

section Local

variable {Data Op : Type} [DecidableEq Op] {setup : Setup Data Op} {s : Committer Data Op}
  {a : Submission Data Op} {body : TransactionProposal Op} {receipt : CommitReceipt}
  {group : List (Queued Op)}

/-- An applied transaction was prepared against the rows its group found, and gets the
sequence after them. -/
theorem applied_prepared (ha : a ∈ groupTrace setup s group)
    (hbody : a.queued.proposal.body = .transaction body) (happlied : a.AppliedAs receipt) :
    a.pins = s.pins ∧ a.before.history = s.canonical.history ∧
      receipt.commitSeq.val = s.canonical.history.current.val + 1 ∧
      ∃ accepted commit, receipt.submitted = commit.submitted ∧
        prepareTransaction setup a.before a.queued.proposal body accepted a.queued.nonces =
          .ok (commit, a.after) := by
  rcases groupTrace_cases setup s group with ⟨error, htrace⟩ |
    ⟨final, slots, commitSeq, history, hm, hfinal, -, htrace⟩
  · rw [htrace] at ha
    obtain ⟨queued, -, rfl⟩ := mem_map.mp ha
    cases happlied.1
  · rw [htrace] at ha
    obtain ⟨before, after, slot, front, frontSlots, rest, restSlots, hfront, hstep, hrest, -,
      heq⟩ := hm.mem_submissions ha
    have hs := hfront.seen (Seen.start s.canonical)
    have hresult : slot.result commitSeq = .ok receipt := by
      rw [← happlied.1, heq]
    obtain ⟨encoded, commit, -, hprepared, hmem, rfl, -⟩ := hstep.of_applied hs hresult happlied.2
    rw [prepareBody, hbody] at hprepared
    have hnext := (finalizeGroup_ok hfinal).2.2.1 (ne_nil_of_mem (hrest.prepared_mono hmem))
    rw [heq]
    exact ⟨rfl, hs.history, hnext, _, commit, rfl, hprepared⟩

variable {row : CommitRow}

/-- The rows of a group come after those before it. -/
theorem current_of_mem_groupRecorded (h : row ∈ groupRecorded setup s group) :
    row.commitSeq.val = s.canonical.history.current.val + 1 := by
  cases hrun : commitProposalGroup setup s.canonical s.pins group with
  | error error =>
    rw [groupRecorded_of_error hrun] at h
    cases h
  | ok result =>
    obtain ⟨c', results⟩ := result
    obtain ⟨final, slots, commitSeq, history, hfold, hmembers, hfinal, -, -⟩ :=
      commitProposalGroup_ok hrun
    rw [groupRecorded_of_ok hfold (hmembers.seen (Seen.start _)) hfinal] at h
    obtain ⟨record, hrecord, rfl⟩ := mem_map.mp h
    exact (finalizeGroup_ok hfinal).2.2.1 (ne_nil_of_mem hrecord)

/-- The current sequence never falls. -/
theorem current_le_step (event : CommitterEvent Op) :
    s.canonical.history.current ≤ (s.step setup event).canonical.history.current := by
  cases event with
  | commitGroup group =>
    change _ ≤ (groupCanonical setup s group).history.current
    rw [groupCanonical]
    cases hrun : commitProposalGroup setup s.canonical s.pins group with
    | error error => exact le_refl _
    | ok result =>
      obtain ⟨c', results⟩ := result
      obtain ⟨final, slots, commitSeq, history, -, -, hfinal, rfl, -⟩ := commitProposalGroup_ok hrun
      obtain ⟨rfl, hle, -⟩ := finalizeGroup_ok hfinal
      exact hle
  | captureSnapshot => exact le_refl _
  | dropPin commitSeq => exact le_refl _
  | crash => exact le_refl _

variable {events : List (CommitterEvent Op)}

/-- The rows of a run come after those before it. -/
theorem current_lt_of_mem_recorded (h : row ∈ s.recorded setup events) :
    s.canonical.history.current < row.commitSeq := by
  induction events generalizing s with
  | nil => cases h
  | cons event events ih =>
    rw [Committer.recorded] at h
    rcases mem_append.mp h with h | h
    · cases event with
      | commitGroup group =>
        have hnext := current_of_mem_groupRecorded h
        rw [Fin.lt_def]
        omega
      | captureSnapshot => cases h
      | dropPin commitSeq => cases h
      | crash => cases h
    · exact lt_of_le_of_lt (current_le_step event) (ih h)

/-- The rows that were recorded after the base of an applied transaction, and before it,
do not touch what it asserts. -/
theorem recorded_disjoint {recorded : List CommitRow} (hretained : Retained s recorded)
    (ha : a ∈ s.trace setup events) (hbody : a.queued.proposal.body = .transaction body)
    (happlied : a.AppliedAs receipt) (hpinned : a.pins.Alive body.snapshot.commitSeq)
    (hrow : row ∈ recorded ++ s.recorded setup events)
    (hafter : body.snapshot.commitSeq < row.commitSeq)
    (hbefore : row.commitSeq < receipt.commitSeq) :
    body.footprint.conflictsWithWrites body.isolation row.writes = false := by
  induction events generalizing s recorded with
  | nil => cases ha
  | cons event events ih =>
    rw [Committer.trace] at ha
    rw [Committer.recorded, ← append_assoc] at hrow
    rcases mem_append.mp ha with ha | ha
    · cases event with
      | commitGroup group =>
        obtain ⟨hpins, hhistory, hnext, accepted, commit, -, hprepared⟩ :=
          applied_prepared ha hbody happlied
        -- A row below the receipt was recorded before the group, and the pin kept it.
        have hold : row ∈ recorded := by
          rcases mem_append.mp hrow with hrow | hrow
          · rcases mem_append.mp hrow with hrow | hrow
            · exact hrow
            · have hsame := current_of_mem_groupRecorded hrow
              rw [Fin.lt_def] at hbefore
              omega
          · have hlater := current_lt_of_mem_recorded hrow
            have hgroup : s.canonical.history.current ≤
                (s.step setup (.commitGroup group)).canonical.history.current :=
              current_le_step _
            rw [Fin.lt_def] at hbefore hlater
            rw [Fin.le_def] at hgroup
            omega
        have hkept := hretained.kept _ (hpins ▸ hpinned) row hold hafter
        have hconflicts := (checkConflicts_ok_iff.mp (prepareTransaction_ok hprepared).2.1).1
        refine hconflicts row (mem_filter.mpr ⟨?_, decide_eq_true hafter⟩)
        rw [hhistory]
        exact hkept
      | captureSnapshot => cases ha
      | dropPin commitSeq => cases ha
      | crash => cases ha
    · exact ih (hretained.step event) ha hrow

/-- Where the submission of an applied transaction is stored. -/
theorem applied_submitted (ha : a ∈ s.trace setup events)
    (hbody : a.queued.proposal.body = .transaction body) (happlied : a.AppliedAs receipt) :
    ∃ seq op, receipt.submitted = some seq ∧ a.after.records.oplog.get seq = some op ∧
      (body.footprint.plan body.isolation body.snapshot.authorityAppliedThrough).mapM
        (Client.encodeAssert setup.crypto setup.mode) = .ok op.rangeAsserts := by
  induction events generalizing s with
  | nil => cases ha
  | cons event events ih =>
    rw [Committer.trace] at ha
    rcases mem_append.mp ha with ha | ha
    · cases event with
      | commitGroup group =>
        obtain ⟨-, -, -, accepted, commit, hsubmitted, hprepared⟩ :=
          applied_prepared ha hbody happlied
        obtain ⟨-, -, jobs, data, encoded, seq, records, -, -, hsubmit, -, rfl, hafter⟩ :=
          prepareTransaction_ok hprepared
        obtain ⟨-, op, tail, -, hasserts, -, hoplog, -⟩ := submit_ok hsubmit
        refine ⟨seq, op, hsubmitted, ?_, hasserts⟩
        rw [hafter]
        dsimp only
        rw [hoplog, OrdMap.get_insert_self]
      | captureSnapshot => cases ha
      | dropPin commitSeq => cases ha
      | crash => cases ha
    · exact ih ha

end Local

/-- **The first committer wins.**  In every run of a committer and every run of the server,
take a transaction that was applied while its base was pinned, and a key it asserts.  No
row that was recorded after its base and before it touches the key.  And if the server
admitted its submission, whatever was admitted before and is relevant to the key was known
to the base, or is an earlier submission of the same device. -/
theorem first_committer_wins {Data Op : Type} [DecidableEq Op] (setup : Setup Data Op) (data : Data)
    (events : List (CommitterEvent Op)) {a : Submission Data Op} {body : TransactionProposal Op}
    {receipt : CommitReceipt} (ha : a ∈ (Committer.fresh Op data).trace setup events)
    (hbody : a.queued.proposal.body = .transaction body) (happlied : a.AppliedAs receipt)
    (hpinned : a.pins.Alive body.snapshot.commitSeq) {asserted : Key}
    (hasserted : asserted ∈ body.footprint.assertedKeys body.isolation) :
    (∀ row ∈ (Committer.fresh Op data).recorded setup events,
        body.snapshot.commitSeq < row.commitSeq → row.commitSeq < receipt.commitSeq →
        ∀ written ∈ row.writes, written.overlapsPrefix asserted = false) ∧
      ∃ seq op encoded, receipt.submitted = some seq ∧
        a.after.records.oplog.get seq = some op ∧
        setup.mode.encodeKey setup.crypto asserted = .ok encoded ∧
        ∀ (sha256 : Bytes → ByteArr 32) (space : SpaceId) (verbs : List Verb)
          (pre post : List Admission) (admission : Admission),
          log sha256 space verbs = pre ++ admission :: post →
          admission.device = setup.device → admission.batch = admissionBatch seq op →
          ∀ e ∈ Server.events pre, relevant (.prefixed encoded) e = true →
            e.seq ≤ body.snapshot.authorityAppliedThrough ∨
              e.device = setup.device ∧ e.deviceEntry.tag.deviceSeq < seq := by
  refine ⟨?_, ?_⟩
  · intro row hrow hafter hbefore written hwritten
    have hretained : Retained (Committer.fresh Op data) [] := Retained.fresh data
    have hdisjoint := recorded_disjoint hretained ha hbody happlied hpinned hrow hafter hbefore
    rw [← Bool.not_eq_true, ConflictFootprint.conflictsWithWrites_iff] at hdisjoint
    by_contra hoverlaps
    exact hdisjoint ⟨asserted, hasserted, written, hwritten, by simpa using hoverlaps⟩
  · obtain ⟨seq, op, hsubmitted, hoplog, hasserts⟩ := applied_submitted ha hbody happlied
    obtain ⟨encoded, hencoded, assertion, hassertion, hupto, hstarts⟩ :=
      exists_assertion hasserted hasserts
    refine ⟨seq, op, encoded, hsubmitted, hoplog, hencoded, ?_⟩
    intro sha256 space verbs pre post admission hlog hdevice hbatch e he hrelevant
    have hmem : assertion ∈ admission.batch.rangeAsserts := by
      rw [hbatch]
      exact hassertion
    have hcases := old_or_own_of_asserted hlog hmem he (relevant_of_startsWith hstarts hrelevant)
    rwa [hupto, hdevice, hbatch] at hcases

/-! ## A transaction that is applied and admitted -/

namespace Asserting

open Resubmitting (key setup)

open Unpinned (otherKey write)

/-- A transaction writes a key.  Two more start from the database it left, the first of them
writes another key, and the last the key again. -/
def events : List (CommitterEvent Unit) :=
  [.commitGroup [write 0 1 key], .captureSnapshot, .commitGroup [write 1 2 otherKey],
    .commitGroup [write 1 3 key]]

/-- The trace of the run. -/
def trace : List (Submission Unit Unit) := (Committer.fresh Unit ()).trace setup events

/-- A submission of the run. -/
def row (seq : U64) (key : Key) : DeviceOp :=
  .commit [⟨.set key ⟨[]⟩, ⟨setup.device, seq, seq, 0⟩, Seal.emptyAeadV1⟩] [⟨key, 0⟩] [] .unchecked

/-- The submissions, as the server admits them. -/
def earlier : List Admission :=
  [⟨1, setup.device, admissionBatch 1 (row 1 key)⟩,
    ⟨2, setup.device, admissionBatch 2 (row 2 otherKey)⟩]

def last : Admission := ⟨3, setup.device, admissionBatch 3 (row 3 key)⟩

/-- The request that pushes them. -/
def verbs : List Verb :=
  [.admitRequest 1 ⟨setup.device, ByteArr.zero 32, [], (earlier ++ [last]).map Admission.batch⟩]

/-- The last transaction is applied while its base is pinned, and its submission is admitted.
The row between its base and itself does not touch its key, and of what was admitted before,
only the first submission of the device is relevant to it. -/
theorem applied_admitted :
    trace.map (fun a => (a.result, a.after.records.oplog.get 3)) =
        [(.ok ⟨1, .applied, some 1⟩, none), (.ok ⟨2, .applied, some 2⟩, none),
          (.ok ⟨3, .applied, some 3⟩, some (row 3 key))] ∧
      ((Committer.fresh Unit ()).recorded setup events).map CommitRow.commitSeq = [1, 2, 3] ∧
      (∀ row ∈ (Committer.fresh Unit ()).recorded setup events, 1 < row.commitSeq →
        row.commitSeq < 3 → ∀ written ∈ row.writes, written.overlapsPrefix key = false) ∧
      log setup.sha256 (ByteArr.zero 16) verbs = earlier ++ [last] ∧
      (Server.events earlier).map (relevant (.prefixed key)) = [true, false] ∧
      ∀ e ∈ Server.events earlier, relevant (.prefixed key) e = true →
        e.seq ≤ 0 ∨ e.device = setup.device ∧ e.deviceEntry.tag.deviceSeq < 3 := by
  have hthree : trace.length = 3 := by decide +kernel
  have hqueued : trace.map Submission.queued =
      [write 0 1 key, write 1 2 otherKey, write 1 3 key] := rfl
  have hpins : trace.map (fun a => (a.pins.get 1).isSome) = [false, true, true] := by
    decide +kernel
  have hresults : trace.map (fun a => (a.result, a.after.records.oplog.get 3)) =
      [(.ok ⟨1, .applied, some 1⟩, none), (.ok ⟨2, .applied, some 2⟩, none),
        (.ok ⟨3, .applied, some 3⟩, some (row 3 key))] := by decide +kernel
  have hlog : log setup.sha256 (ByteArr.zero 16) verbs = earlier ++ [last] := by decide +kernel
  obtain ⟨_, _, a, ha⟩ := length_eq_three.mp hthree
  have hmem : a ∈ (Committer.fresh Unit ()).trace setup events := by
    change a ∈ trace
    simp [ha]
  refine ⟨hresults, by decide +kernel, ?_⟩
  simp only [ha, map_cons, map_nil, cons.injEq, Prod.mk.injEq, and_true] at hqueued hpins hresults
  obtain ⟨-, -, hqueued⟩ := hqueued
  have hbody : a.queued.proposal.body = (write 1 3 key).proposal.body := by rw [hqueued]
  have hpinned : a.pins.Alive 1 := hpins.2.2
  obtain ⟨-, -, hresult, hrow⟩ := hresults
  have hkey : key ∈ (ConflictFootprint.ofGuards [⟨key, .write⟩]).assertedKeys .snapshot := by
    decide +kernel
  obtain ⟨hdisjoint, seq, op, encoded, hseq, hop, hencoded, hadmitted⟩ :=
    first_committer_wins setup () events hmem hbody ⟨hresult, rfl⟩ hpinned hkey
  cases hseq
  cases hencoded
  obtain rfl : row 3 key = op := Option.some.inj (hrow.symm.trans hop)
  exact ⟨hdisjoint, hlog, by decide +kernel,
    hadmitted _ _ verbs earlier [] last hlog rfl rfl⟩

end Asserting

end Homebase.Multilite
