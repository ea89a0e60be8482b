import Homebase.Refine.Groups

set_option autoImplicit false

/-!
# Refinement: members and the commit log

A member reads the commit log only to look for its receipt and, if it is a transaction,
for conflicts.  Everything else it does is the same over any commit log
(`prepareBody_sameOutcome`), so a group and the same proposals one by one differ only in
where the conflicts are looked up.
-/

namespace Homebase.Multilite

open Foundation Homebase.Core
open Client (ValueNonce)

section Histories

variable {Data Op : Type} {setup : Setup Data Op}

/-- The database with another commit log. -/
def Canonical.withHistory (c : Canonical Data Op) (h : History) : Canonical Data Op :=
  { c with history := h }

variable (c : Canonical Data Op) (h : History)

theorem captureLocalRepair_withHistory (op : Op) :
    captureLocalRepair setup (c.withHistory h) op =
      (captureLocalRepair setup c op).map (·.withHistory h) := by
  rw [captureLocalRepair, captureLocalRepair]
  split
  · rfl
  · refine bind_eq_map _ fun sidecar => ?_
    exact ite_eq_map rfl rfl

theorem applyOperation_withHistory (op : Op) :
    applyOperation setup (c.withHistory h) op =
      (applyOperation setup c op).map (·.withHistory h) :=
  bind_eq_map _ fun _ => rfl

theorem applySpeculative_withHistory (transaction : Transaction Op) :
    applySpeculative setup (c.withHistory h) transaction =
      (applySpeculative setup c transaction).map (·.withHistory h) := by
  refine foldlM_map (fun s => s.withHistory h) (fun s op => ?_) _ c
  rw [applySpeculativeOperation, captureLocalRepair_withHistory]
  exact map_bind_eq_map fun t => applyOperation_withHistory t h op

theorem applyTransaction_withHistory (transaction : Transaction Op) :
    applyTransaction setup (c.withHistory h) transaction =
      (applyTransaction setup c transaction).map (·.withHistory h) := by
  refine foldlM_map (fun s => s.withHistory h) (fun s op => ?_) _ c
  exact applyOperation_withHistory s h op

theorem retire_withHistory (id : RepairId) :
    retire (c.withHistory h) id = (retire c id).map (·.withHistory h) :=
  ite_eq_map rfl rfl

theorem revertOperation_withHistory (op : Op) :
    revertOperation setup (c.withHistory h) op =
      (revertOperation setup c op).map (·.withHistory h) := by
  simp only [revertOperation, Canonical.withHistory]
  cases setup.logical.repairSpec op with
  | none => exact bind_eq_map _ fun data => rfl
  | some spec =>
    dsimp only
    cases c.jobs.get spec.id with
    | none => rfl
    | some job =>
      refine ite_eq_map rfl (bind_eq_map _ fun data => ?_)
      exact retire_withHistory { c with data := data } h spec.id

theorem pendingInsert_withHistory (seq : DeviceSeq) (transaction : Transaction Op) :
    pendingInsert setup (c.withHistory h) seq transaction =
      (pendingInsert setup c seq transaction).map (·.withHistory h) := by
  refine ite_eq_map rfl (ite_eq_map rfl (bind_eq_map _ fun encoded => ?_))
  exact ite_eq_map rfl rfl

theorem acceptThrough_withHistory (through : DeviceSeq) :
    acceptThrough setup (c.withHistory h) through =
      (acceptThrough setup c through).map (·.withHistory h) := by
  simp only [acceptThrough]
  rw [show (c.withHistory h).pending = c.pending from rfl,
    foldlM_map (fun s => s.withHistory h) fun s id => retire_withHistory s h id]
  exact map_bind_eq_map fun retired => rfl

theorem applyAdmitted_withHistory (localDevice : DeviceId) (writes : OrdSet WriteRegion)
    (admitted : DeviceId × Transaction Op) :
    applyAdmitted setup localDevice (c.withHistory h, writes) admitted =
      (applyAdmitted setup localDevice (c, writes) admitted).map fun s =>
        (s.1.withHistory h, s.2) := by
  refine ite_eq_map rfl (bind_eq_map _ fun compiled => ?_)
  dsimp only
  rw [applyTransaction_withHistory]
  exact map_bind_eq_map fun applied => rfl

/-- What a member returns over another commit log. -/
def moveTo (h : History) :
    Except CommitError (PreparedRecord × Canonical Data Op) →
      Except CommitError (PreparedRecord × Canonical Data Op) :=
  Except.map fun p => (p.1, p.2.withHistory h)

variable {proposal : CommitProposal Op}

theorem prepareApply_withHistory (body : ApplyAdmissionsProposal Op) :
    prepareApply setup (c.withHistory h) proposal body =
      moveTo h (prepareApply setup c proposal body) := by
  refine bind_eq_map _ fun valid => ite_eq_map rfl (ite_eq_map rfl ?_)
  rw [foldlM_map (fun s : Canonical Data Op × OrdSet WriteRegion => (s.1.withHistory h, s.2))
    (fun s admitted => @applyAdmitted_withHistory Data Op setup s.1 h body.localDevice
      s.2 admitted) body.transactions (c, OrdMap.empty)]
  refine map_bind_eq_map fun applied => bind_eq_map _ fun records => ?_
  exact bind_eq_map _ fun commit => rfl

theorem prepareAppend_withHistory (body : AppendAdmissionsProposal) :
    prepareAppend setup (c.withHistory h) proposal body =
      moveTo h (prepareAppend setup c proposal body) := by
  refine bind_eq_map _ fun valid => ite_eq_map rfl (bind_eq_map _ fun records => ?_)
  exact bind_eq_map _ fun commit => rfl

theorem prepareAccept_withHistory (body : AcceptSubmissionsProposal) :
    prepareAccept setup (c.withHistory h) proposal body =
      moveTo h (prepareAccept setup c proposal body) := by
  refine bind_eq_map _ fun valid => ite_eq_map rfl (bind_eq_map _ fun records => ?_)
  change (acceptThrough setup (Canonical.withHistory { c with records := records } h) _ >>= _) = _
  rw [acceptThrough_withHistory]
  refine map_bind_eq_map fun accepted => ?_
  exact bind_eq_map _ fun commit => rfl

section Reject

variable [DecidableEq Op]

theorem RejectionRepair.apply_withHistory (repair : RejectionRepair Op) :
    repair.apply setup (c.withHistory h) = (repair.apply setup c).map (·.withHistory h) := by
  refine ite_eq_map rfl ?_
  rw [foldlM_map (fun s => s.withHistory h) fun s op =>
    @revertOperation_withHistory Data Op setup s h op]
  refine map_bind_eq_map fun reverted => ?_
  exact bind_eq_map _ fun checked => rfl

theorem prepareReject_withHistory (body : RejectSubmissionsProposal) :
    prepareReject setup (c.withHistory h) proposal body =
      moveTo h (prepareReject setup c proposal body) := by
  refine bind_eq_map _ fun valid => ite_eq_map rfl ?_
  dsimp only
  rw [show (c.withHistory h).records = c.records from rfl]
  cases U64.checkedSub c.records.oplogCursors.tail 1 with
  | none => rfl
  | some through =>
    refine bind_eq_map _ fun found => ?_
    cases found with
    | none => rfl
    | some repair =>
      dsimp only
      rw [RejectionRepair.apply_withHistory]
      refine map_bind_eq_map fun applied => bind_eq_map _ fun records => ?_
      exact bind_eq_map _ fun commit => rfl

end Reject

/-! ## Transactions -/

/-- What `prepare_commit_proposal` does with a transaction that passed its checks. -/
def submitTransaction (setup : Setup Data Op) (c : Canonical Data Op)
    (proposal : CommitProposal Op) (body : TransactionProposal Op) (nonces : List ValueNonce) :
    Except CommitError (PreparedRecord × Canonical Data Op) := do
  let c ← (applySpeculative setup c body.compiled.logical).mapError classifyReplayError
  let commit ← prepareReceipt setup proposal (writesFromMutations body.compiled.mutations)
  let (mutations, assertions) ← body.toHomebase
  let (seq, records) ← orClient (submit setup c.records nonces mutations assertions)
  let c ← pendingInsert setup { c with records := records } seq body.compiled.logical
  .ok ({ commit with submitted := some seq }, c)

variable {body : TransactionProposal Op} {accepted : List WriteRegion} {nonces : List ValueNonce}

theorem prepareTransaction_eq (hcurrent : body.snapshot.commitSeq ≤ c.history.current) :
    prepareTransaction setup c proposal body accepted nonces = (do
      proposal.body.validate
      checkConflicts c body accepted
      submitTransaction setup c proposal body nonces) := by
  rw [prepareTransaction, if_neg (not_lt.mpr hcurrent)]
  rfl

theorem submitTransaction_withHistory (body : TransactionProposal Op) (nonces : List ValueNonce) :
    submitTransaction setup (c.withHistory h) proposal body nonces =
      moveTo h (submitTransaction setup c proposal body nonces) := by
  have hclass : ∀ x : Except CommitError (Canonical Data Op),
      (x.map (·.withHistory h)).mapError classifyReplayError =
        (x.mapError classifyReplayError).map (·.withHistory h) := by
    rintro (error | applied) <;> rfl
  rw [submitTransaction, applySpeculative_withHistory, hclass]
  refine map_bind_eq_map fun applied => bind_eq_map _ fun commit => ?_
  refine bind_eq_map _ fun lowered => bind_eq_map _ fun submitted => ?_
  change (pendingInsert setup
    (Canonical.withHistory { applied with records := submitted.2 } h) _ _ >>= _) = _
  rw [pendingInsert_withHistory]
  exact map_bind_eq_map fun inserted => rfl

/-- The error class: two conflicts are one class, whatever they name. -/
def SameClass (e e' : CommitError) : Prop :=
  e = e' ∨ ∃ conflict conflict', e = .commitConflict conflict ∧ e' = .commitConflict conflict'

theorem SameClass.isPanic_eq {e e' : CommitError} (hclass : SameClass e e') :
    e.isPanic = e'.isPanic := by
  rcases hclass with rfl | ⟨conflict, conflict', rfl, rfl⟩ <;> rfl

/-- Two members do the same over two commit logs. -/
inductive SameOutcome (h : History) :
    Except CommitError (PreparedRecord × Canonical Data Op) →
      Except CommitError (PreparedRecord × Canonical Data Op) → Prop
  | ok (commit : PreparedRecord) (c : Canonical Data Op) :
      SameOutcome h (.ok (commit, c)) (.ok (commit, c.withHistory h))
  | error {e e' : CommitError} (hclass : SameClass e e') : SameOutcome h (.error e) (.error e')

omit c in
theorem SameOutcome.moveTo (x : Except CommitError (PreparedRecord × Canonical Data Op)) :
    SameOutcome h x (Multilite.moveTo h x) := by
  cases x with
  | ok p => exact .ok p.1 p.2
  | error e => exact .error (.inl rfl)

theorem checkConflicts_error {error : CommitError}
    (herror : checkConflicts c body accepted = .error error) :
    ∃ conflict, error = .commitConflict conflict := by
  rw [checkConflicts] at herror
  split at herror
  · cases herror
    exact ⟨_, rfl⟩
  · split at herror
    · cases herror
      exact ⟨_, rfl⟩
    · cases herror

/-- Over another commit log in which a transaction has a conflict when it has one here. -/
theorem prepareBody_sameOutcome [DecidableEq Op] {accepted' : List WriteRegion}
    (hconflicts : ∀ body, proposal.body = .transaction body →
      body.snapshot.commitSeq ≤ c.history.current ∧ body.snapshot.commitSeq ≤ h.current ∧
        (checkConflicts c body accepted = .ok () ↔
          checkConflicts (c.withHistory h) body accepted' = .ok ())) :
    SameOutcome h (prepareBody setup c proposal accepted nonces)
      (prepareBody setup (c.withHistory h) proposal accepted' nonces) := by
  rw [prepareBody, prepareBody]
  split
  next body hbody =>
    obtain ⟨hcurrent, hcurrent', hiff⟩ := hconflicts body hbody
    rw [prepareTransaction_eq c hcurrent, prepareTransaction_eq (c.withHistory h) hcurrent']
    cases proposal.body.validate with
    | error e => exact .error (.inl rfl)
    | ok valid =>
      simp only [ok_bind]
      cases hcheck : checkConflicts c body accepted with
      | ok u =>
        rw [hiff.mp hcheck, ok_bind, ok_bind, submitTransaction_withHistory]
        exact SameOutcome.moveTo h _
      | error e =>
        cases hcheck' : checkConflicts (c.withHistory h) body accepted' with
        | ok u => cases hcheck.symm.trans (hiff.mpr hcheck')
        | error e' =>
          obtain ⟨conflict, rfl⟩ := checkConflicts_error c hcheck
          obtain ⟨conflict', rfl⟩ := checkConflicts_error _ hcheck'
          exact .error (.inr ⟨conflict, conflict', rfl, rfl⟩)
  · rw [prepareApply_withHistory]
    exact SameOutcome.moveTo h _
  · rw [prepareReject_withHistory]
    exact SameOutcome.moveTo h _
  · rw [prepareAccept_withHistory]
    exact SameOutcome.moveTo h _
  · rw [prepareAppend_withHistory]
    exact SameOutcome.moveTo h _

end Histories

end Homebase.Multilite
