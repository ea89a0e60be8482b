import Homebase.Client.Space

set_option autoImplicit false

/-!
# Client: pushing (`client/src/client.rs`)

`pushSpace` drains the active window of one space.  One iteration of its loop
loads the cursors, reads the window, ships one request and moves the cursors as
the server's answer says (`pushStep`).
-/

namespace Homebase.Client

open Foundation Homebase.Core

/-! ## Pushing -/

/-- `admission_batch`. -/
def admissionBatch (seq : DeviceSeq) (record : DeviceOp) : AdmissionBatch :=
  ⟨seq, record.rangeAsserts, record.entries⟩

/-- `PushOutcome`. -/
inductive PushOutcome where
  | drained (ackedThrough : Option DeviceSeq)
  | stalled (submission : DeviceSeq) (error : KernelError) (ackedThrough : Option DeviceSeq)
  deriving DecidableEq

/-- `PushRun`. -/
structure PushRun where
  outcome : PushOutcome
  targetAdmission : Option AdmissionSeq
  deriving DecidableEq

/-- `PushRun::drained`. -/
def PushRun.drained (acked : Option DeviceSeq) (targetAdmission : Option AdmissionSeq) : PushRun :=
  ⟨.drained acked, targetAdmission⟩

/-- `PushRun::stalled`. -/
def PushRun.stalled (submission : DeviceSeq) (error : KernelError) (acked : Option DeviceSeq)
    (targetAdmission : Option AdmissionSeq) : PushRun :=
  ⟨.stalled submission error acked, targetAdmission⟩

/-- `target_missing`. -/
def targetMissing : Option DeviceSeq → Except Fault PushRun
  | some seq => .error (.submissionNotPending seq)
  | none => .ok (PushRun.drained none none)

/-- The variables of the loop of `push_space`. -/
structure PushState where
  acked : Option DeviceSeq
  targetAdmission : Option AdmissionSeq
  probe : Bool
  deriving DecidableEq

/-- What the cursors alone say about a target; `none` if it is inside the window. -/
def settledTarget (through : Option DeviceSeq) (cursors : OplogCursors) :
    Option (Except Fault PushRun) :=
  match through with
  | none => none
  | some target =>
      if target < cursors.head then some (.ok (PushRun.drained none none))
      else if target < cursors.neck ∨ cursors.tail ≤ target then
        some (.error (.submissionNotPending target))
      else none

/-- The last sequence number of the window one request may reach. -/
def windowEnd (through : Option DeviceSeq) (cursors : OplogCursors) (cap : U64) : DeviceSeq :=
  let last := U64.saturatingSub cursors.tail 1
  let streamEnd := through.elim last fun target => min target last
  min (U64.saturatingAdd cursors.neck (U64.saturatingSub cap 1)) streamEnd

/-- The rows shipped after the head: consecutive, and within the cap on entries. -/
def groupRows (cap : Nat) : DeviceSeq → Nat → List (DeviceSeq × DeviceOp) →
    List (DeviceSeq × DeviceOp)
  | _, _, [] => []
  | last, count, (seq, record) :: rest =>
      if seq.val ≠ last.val + 1 ∨ cap < count + record.entries.length then []
      else (seq, record) :: groupRows cap seq (count + record.entries.length) rest

/-- The rows of one request. -/
def shippedRows (probe : Bool) (cap : U64) (head : DeviceSeq × DeviceOp)
    (rest : List (DeviceSeq × DeviceOp)) : List (DeviceSeq × DeviceOp) :=
  if probe then [head]
  else head :: groupRows cap.val head.1 head.2.entries.length rest

/-- The first failed result of a response, with its position. -/
def firstFailure (results : List AdmissionResult) : Option (Nat × KernelError) :=
  results.zipIdx.findSome? fun
    | (.applied _, _) => none
    | (.failed error, i) => some (i, error)

/-- The keys a request writes. -/
def shippedKeys (batches : List AdmissionBatch) : List Key :=
  batches.flatMap fun batch => batch.entries.filterMap fun entry => entry.mutation.pointKey

section Push

variable (sha256 : Bytes → ByteArr 32) (device : DeviceId) (space : SpaceId)

/-- The rows folded into a checksum. -/
def rebuild (checksum : DeviceChecksum) (rows : List (DeviceSeq × DeviceOp)) : DeviceChecksum :=
  rows.foldl (fun rebuilt row => (admissionBatch row.1 row.2).checksum sha256 rebuilt space device)
    checksum

/-- Whether the target is reached by an acknowledgement through `last`. -/
def reached (through : Option DeviceSeq) (last : DeviceSeq) : Bool :=
  through.any fun target => decide (target ≤ last)

/-- The loop after an acknowledgement through `last`. -/
def acknowledged (through : Option DeviceSeq) (last : DeviceSeq)
    (targetAdmission : Option AdmissionSeq) : PushState ⊕ PushRun :=
  if reached through last then .inr (PushRun.drained (some last) targetAdmission)
  else .inl ⟨some last, targetAdmission, false⟩

/-- The position in the server's log a response reveals of the target. -/
def revealed (through : Option DeviceSeq) (head last : DeviceSeq) (response : AdmissionResponse)
    (known : Option AdmissionSeq) : Option AdmissionSeq :=
  match through with
  | none => known
  | some target =>
      if head ≤ target ∧ target ≤ last then
        response.appliedAdmissionSeq (target.val - head.val)
      else known

/-- The branch of a response. -/
def pushResponse (through : Option DeviceSeq) (head last : DeviceSeq) (batchCount : Nat)
    (st : PushState) (response : AdmissionResponse) : Act (PushState ⊕ PushRun) := do
  if response.results.length ≠ batchCount then
    throw (.malformedAdmit response.results.length batchCount)
  else
    match firstFailure response.results with
    | some (failed, error) =>
        if head < last then pure (.inl { st with probe := true })
        else pure (.inr (PushRun.stalled (U64.ofNat (head.val + failed)) error st.acked
          st.targetAdmission))
    | none =>
        let targetAdmission := revealed through head last response st.targetAdmission
        ask (.trimOplog space last response.checksum)
        pure (acknowledged through last targetAdmission)

/-- The rows a checksum mismatch is reconciled with. -/
def retainedRows (cursors : OplogCursors) (currentSeq : DeviceSeq) :
    Act (List (DeviceSeq × DeviceOp)) :=
  if cursors.neck ≤ currentSeq ∧ currentSeq < cursors.tail then
    ask (.oplog space cursors.neck currentSeq)
  else pure []

/-- The branch of a checksum mismatch: a lost acknowledgement, or a fork. -/
def pushMismatch (through : Option DeviceSeq) (cursors : OplogCursors)
    (confirmed : DeviceChecksum) (st : PushState) (currentSeq : DeviceSeq)
    (current : DeviceChecksum) : Act (PushState ⊕ PushRun) := do
  let retained ← retainedRows space cursors currentSeq
  let reachesCurrent := retained.getLast?.any fun row => decide (row.1 = currentSeq)
  if reachesCurrent = false ∨ rebuild sha256 device space confirmed retained ≠ current then
    throw (.fork currentSeq)
  else
    ask (.trimOplog space currentSeq current)
    pure (acknowledged through currentSeq st.targetAdmission)

/-- The branches of the server's answer. -/
def pushAnswer (through : Option DeviceSeq) (cursors : OplogCursors) (confirmed : DeviceChecksum)
    (head last : DeviceSeq) (batchCount : Nat) (st : PushState)
    (answer : Except SpaceError AdmissionResponse) : Act (PushState ⊕ PushRun) :=
  match answer with
  | .ok response => pushResponse space through head last batchCount st response
  | .error (.kernel (.deviceChecksumMismatch currentSeq current)) =>
      pushMismatch sha256 device space through cursors confirmed st currentSeq current
  | .error (.kernel (.deviceSeqRegression current _)) => throw (.fork current)
  | .error (.kernel error) =>
      if head < last then pure (.inl { st with probe := true })
      else pure (.inr (PushRun.stalled head error st.acked st.targetAdmission))
  | .error .unavailable => throw .unavailable

/-- One request of `push_space`. -/
def pushRows (through : Option DeviceSeq) (cursors : OplogCursors) (confirmed : DeviceChecksum)
    (head : DeviceSeq) (rows : List (DeviceSeq × DeviceOp)) (st : PushState) :
    Act (PushState ⊕ PushRun) := do
  let last := (rows.getLast?.map Prod.fst).getD head
  let batches := rows.map fun row => admissionBatch row.1 row.2
  let evidence ← liveWriteLeases space (shippedKeys batches)
  let answer ← ask (.server space (.admitRequest ⟨device, confirmed, evidence, batches⟩))
  pushAnswer sha256 device space through cursors confirmed head last batches.length st answer

/-- One iteration of the loop of `push_space` on a window that is not empty. -/
def pushWindow (through : Option DeviceSeq) (cursors : OplogCursors) (confirmed : DeviceChecksum)
    (st : PushState) : Act (PushState ⊕ PushRun) := do
  let cap ← ask .pushCap
  let stop := windowEnd through cursors cap
  let window ← ask (.oplog space cursors.neck stop)
  match window with
  | [] => do
      ask (.trimOplog space stop confirmed)
      pure (.inl st)
  | head :: rest =>
      pushRows sha256 device space through cursors confirmed head.1
        (shippedRows st.probe cap head rest) st

/-- One iteration of the loop of `push_space`. -/
def pushStep (through : Option DeviceSeq) (st : PushState) : Act (PushState ⊕ PushRun) := do
  let state ← ask .load
  match state.spaces.get space with
  | none => do
      let run ← settle (targetMissing through)
      pure (.inr run)
  | some s =>
      match settledTarget through s.cursors with
      | some settled => do
          let run ← settle settled
          pure (.inr run)
      | none =>
          if s.cursors.tail ≤ s.cursors.neck then
            pure (.inr (PushRun.drained st.acked st.targetAdmission))
          else pushWindow sha256 device space through s.cursors s.checksum st

/-- `push_space`. -/
def pushSpace (through : Option DeviceSeq) : Act PushRun :=
  Act.iterate (pushStep sha256 device space through) ⟨none, none, false⟩

end Push

end Homebase.Client
