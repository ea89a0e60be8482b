import Homebase.Client.Pending
import Homebase.Ledger.Panics
import Homebase.Properties.Coalescing

set_option autoImplicit false

/-!
# Properties: shipping rows one by one

The specification of a push whose checksum the server shares: ship the pending rows one request
each, until one is refused (`shipEach`).  A group that is admitted stands for the requests of its
rows (`shipEach_group`); a group that is refused says nothing yet about its first row, except
where the refusal is about the history of the device or the server broke down.
-/

namespace Homebase.Properties

open Foundation Homebase.Core Server Client Ledger List
  Homebase.Refine

/-! ## How a request is refused -/

/-- The error is about the history of the device. -/
def aboutHistory : KernelError → Bool
  | .deviceChecksumMismatch _ _ => true
  | .deviceSeqRegression _ _ => true
  | _ => false

/-- No kernel error of the computation is about the history of the device. -/
def Silent {α : Type} (x : Except Failure α) : Prop :=
  ∀ error, x = .error (.kernel error) → aboutHistory error = false

section Silent

variable {α β : Type}

theorem Silent.ok (a : α) : Silent (.ok a) := fun _ h => by cases h

theorem Silent.panic (message : String) : Silent (.error (.panic message) : Except Failure α) :=
  fun _ h => by cases h

theorem Silent.kernel {error : KernelError} (h : aboutHistory error = false) :
    Silent (.error (.kernel error) : Except Failure α) := fun _ heq => by
  cases heq
  exact h

theorem Silent.bind {x : Except Failure α} {f : α → Except Failure β} (hx : Silent x)
    (hf : ∀ a, Silent (f a)) : Silent (x >>= f) := fun error h => by
  rcases bind_eq_error_iff.mp h with h | ⟨a, -, h⟩
  · exact hx error h
  · exact hf a error h

theorem Silent.forM {f : α → Except Failure Unit} (hf : ∀ a, Silent (f a)) (l : List α) :
    Silent (l.forM f) := by
  induction l with
  | nil => exact .ok ()
  | cons a l ih => exact Silent.bind (hf a) fun _ => ih

theorem silent_specWrites (leases : Leases) (now : Timestamp) (req : AdmissionRequest) :
    Silent (specWrites leases now req) := by
  refine Silent.bind (.forM (fun key => ?_) _) fun _ => .forM (fun range => ?_) _
  · unfold specKey
    split
    · exact .kernel rfl
    · exact .ok ()
  · unfold specRange
    split
    · exact .kernel rfl
    · exact .ok ()

theorem silent_addOne (value : U64) : Silent (addOne value) := by
  rw [addOne_eq]
  split
  · exact .ok _
  · exact .panic _

theorem silent_opIndexOf (index : Nat) : Silent (opIndexOf index) := by
  unfold opIndexOf
  split
  · exact .ok _
  · exact .kernel rfl

theorem silent_checkAgainst (es : List Entry) (e : Entry) : Silent (checkAgainst es e) := by
  refine Silent.bind ?_ fun _ => ?_
  · unfold checkVersion
    split <;> split
    all_goals first | exact .kernel rfl | exact .ok ()
  · unfold checkCount
    split
    · exact .ok ()
    · exact .panic _

theorem silent_specEntries (device : DeviceId) (deviceSeq : DeviceSeq) (seq : AdmissionSeq)
    (es : List Entry) (index : Nat) (entries : List SealedEntry) :
    Silent (specEntries device deviceSeq seq es index entries) := by
  induction entries generalizing es index with
  | nil => exact .ok []
  | cons entry rest ih =>
    refine Silent.bind ?_ fun admitted => Silent.bind (ih _ _) fun _ => .ok _
    refine Silent.bind (silent_opIndexOf index) fun opIndex => ?_
    split
    · exact .kernel rfl
    · split
      · exact .kernel rfl
      · exact Silent.bind (silent_checkAgainst _ _) fun _ => .ok _

end Silent

theorem silent_of_orExit {α : Type} {x : Except Failure α} (hx : Silent x) {error : KernelError}
    (h : orExit x = .error (.failure (.kernel error))) : aboutHistory error = false := by
  obtain ⟨failure, hfail, heq⟩ := orExit_eq_error h
  cases heq
  exact hx error hfail

section Batches

variable {reject : List RangeAssertFailure → Exit} {device : DeviceId}
  (hreject : ∀ failures, ∃ response, reject failures = .response response)

include hreject

variable {log : List Admission} {batch : AdmissionBatch} {error : KernelError}

theorem silent_specBatch
    (h : specBatch reject device log batch = .error (.failure (.kernel error))) :
    aboutHistory error = false := by
  unfold specBatch at h
  split at h
  · obtain ⟨response, hresponse⟩ := hreject (assertFailures (events log) device batch)
    rw [hresponse] at h
    cases h
  rcases bind_eq_error_iff.mp h with h | ⟨_, -, h⟩
  · exact silent_of_orExit (silent_opIndexOf _) h
  rcases bind_eq_error_iff.mp h with h | ⟨_, -, h⟩
  · exact silent_of_orExit (silent_addOne _) h
  rcases bind_eq_error_iff.mp h with h | ⟨_, -, h⟩
  · exact silent_of_orExit (silent_specEntries _ _ _ _ _ _) h
  · cases h

variable {batches : List AdmissionBatch}

theorem silent_specBatches
    (h : specBatches reject device log batches = .error (.failure (.kernel error))) :
    aboutHistory error = false := by
  induction batches generalizing log with
  | nil => cases h
  | cons batch rest ih =>
    rw [specBatches] at h
    rcases bind_eq_error_iff.mp h with h | ⟨a, -, h⟩
    · exact silent_specBatch hreject h
    rcases bind_eq_error_iff.mp h with h | ⟨_, -, h⟩
    · exact ih h
    · cases h

variable {failure : Failure}

/-- A failure does not depend on how assertions are answered. -/
theorem specBatch_failure (reject' : List RangeAssertFailure → Exit)
    (h : specBatch reject device log batch = .error (.failure failure)) :
    specBatch reject' device log batch = .error (.failure failure) := by
  unfold specBatch at h ⊢
  split at h
  next =>
    obtain ⟨response, hresponse⟩ := hreject (assertFailures (events log) device batch)
    rw [hresponse] at h
    cases h
  next hasserts =>
    rw [if_neg hasserts]
    exact h

theorem specBatches_failure (reject' : List RangeAssertFailure → Exit)
    (h : specBatches reject device log batches = .error (.failure failure)) :
    specBatches reject' device log batches = .error (.failure failure) := by
  induction batches generalizing log with
  | nil => cases h
  | cons batch rest ih =>
    rw [specBatches] at h ⊢
    rcases bind_eq_error_iff.mp h with h | ⟨a, ha, h⟩
    · rw [specBatch_failure hreject reject' h, error_bind]
    rcases bind_eq_error_iff.mp h with h | ⟨_, -, h⟩
    · rw [specBatch_eq_ok_iff.mpr (specBatch_eq_ok_iff.mp ha), ok_bind, ih h, error_bind]
    · cases h

end Batches

/-! ## Requests with the checksum of the server -/

/-- A request with the checksum of the server. -/
def shipment (device : DeviceId) (L : Space) (batches : List AdmissionBatch) : AdmissionRequest :=
  ⟨device, L.checksum device, [], batches⟩

section Shipment

variable {sha256 : Bytes → ByteArr 32} {space : SpaceId} {L : Space} {now : Timestamp}
  {device : DeviceId} {batch : AdmissionBatch} {rest : List AdmissionBatch}

/-- How the batches of a shipment are answered whose assertions are violated. -/
def answerAsserts (device : DeviceId) (L : Space) (batches : List AdmissionBatch)
    (failures : List RangeAssertFailure) : Exit :=
  .response (failedResponse batches.length (.rangeAssertFailed failures) (L.checksum device))

/-- A first batch the device is already past. -/
theorem specAdmit_of_le (hle : batch.deviceSeq ≤ L.lastSeq device) :
    specAdmit sha256 space L now (shipment device L (batch :: rest)) =
      .error (.failure (.kernel (.deviceSeqRegression (L.lastSeq device) batch.deviceSeq))) := by
  rw [specAdmit, shipment, if_neg (not_not.mpr rfl), checkDeviceSeqs, if_pos hle]
  rfl

/-- Consecutive batches behind the last one of the device. -/
theorem specAdmit_of_lt (hcons : Consecutive (batch :: rest))
    (hlt : L.lastSeq device < batch.deviceSeq) :
    specAdmit sha256 space L now (shipment device L (batch :: rest)) =
      (orExit (specWrites L.leases now (shipment device L (batch :: rest))) >>= fun _ =>
        specBatches (answerAsserts device L (batch :: rest)) device L.log (batch :: rest) >>=
          fun added => .ok (appliedResponse sha256 space device L.log added,
            L.append sha256 space device
              ((rest.map AdmissionBatch.deviceSeq).getLast?.getD batch.deviceSeq) added)) := by
  have hseqs : checkDeviceSeqs true (L.lastSeq device) (batch :: rest) =
      .ok ((rest.map AdmissionBatch.deviceSeq).getLast?.getD batch.deviceSeq) := by
    rw [checkDeviceSeqs, if_neg (not_le.mpr hlt), if_pos rfl, checkDeviceSeqs_of_consecutive hcons]
  rw [specAdmit, shipment, if_neg (not_not.mpr rfl), hseqs]
  rfl

theorem answerAsserts_response (batches : List AdmissionBatch)
    (failures : List RangeAssertFailure) :
    ∃ response, answerAsserts device L batches failures = .response response := ⟨_, rfl⟩

/-- A refusal about the history of the device is about the first batch. -/
theorem specAdmit_history (hcons : Consecutive (batch :: rest)) {error : KernelError}
    (h : specAdmit sha256 space L now (shipment device L (batch :: rest)) =
      .error (.failure (.kernel error))) (habout : aboutHistory error = true) :
    batch.deviceSeq ≤ L.lastSeq device := by
  by_contra hlt
  rw [specAdmit_of_lt hcons (not_le.mp hlt)] at h
  have hsilent : aboutHistory error = false := by
    rcases bind_eq_error_iff.mp h with h | ⟨_, -, h⟩
    · exact silent_of_orExit (silent_specWrites _ _ _) h
    rcases bind_eq_error_iff.mp h with h | ⟨_, -, h⟩
    · exact silent_specBatches (answerAsserts_response _) h
    · cases h
  rw [habout] at hsilent
  cases hsilent

/-- A request on which the server breaks down: so it does on the first batch, or that is admitted
and it does on the others. -/
theorem specAdmit_panicked (hcons : Consecutive (batch :: rest)) {message : String}
    (h : specAdmit sha256 space L now (shipment device L (batch :: rest)) =
      .error (.failure (.panic message))) :
    specAdmit sha256 space L now (shipment device L [batch]) =
        .error (.failure (.panic message)) ∨
      ∃ response L₁, specAdmit sha256 space L now (shipment device L [batch]) =
          .ok (response, L₁) ∧
        specAdmit sha256 space L₁ now (shipment device L₁ rest) =
          .error (.failure (.panic message)) := by
  have hlt : L.lastSeq device < batch.deviceSeq := by
    by_contra hle
    rw [specAdmit_of_le (not_lt.mp hle)] at h
    cases h
  have hone : Consecutive [batch] := isChain_singleton _
  rw [specAdmit_of_lt hcons hlt] at h
  rw [specAdmit_of_lt hone hlt]
  rcases bind_eq_error_iff.mp h with h | ⟨_, hwrites, h⟩
  · exact absurd (orExit_eq_panic h) specWrites_panic
  rcases bind_eq_error_iff.mp h with h | ⟨_, -, h⟩
  swap
  · cases h
  replace hwrites := orExit_eq_ok_iff.mp hwrites
  rw [specBatches] at h
  rcases bind_eq_error_iff.mp h with h | ⟨a, ha, h⟩
  · have hwrites₁ := ((specWrites_cons_iff DeviceChecksum.empty).mp hwrites).1
    have hbatch := specBatch_failure (answerAsserts_response _) (answerAsserts device L [batch]) h
    refine .inl ?_
    rw [shipment, orExit_eq_ok_iff.mpr hwrites₁, ok_bind, specBatches, hbatch]
    rfl
  rcases bind_eq_error_iff.mp h with h | ⟨_, -, h⟩
  swap
  · cases h
  refine .inr ⟨appliedResponse sha256 space device L.log [a],
    L.append sha256 space device batch.deviceSeq [a], ?_, ?_⟩
  · have hwrites₁ := ((specWrites_cons_iff DeviceChecksum.empty).mp hwrites).1
    have hbatch : specBatch (answerAsserts device L [batch]) device L.log batch = .ok a :=
      specBatch_eq_ok_iff.mpr (specBatch_eq_ok_iff.mp ha)
    rw [shipment, orExit_eq_ok_iff.mpr hwrites₁, ok_bind, specBatches, hbatch]
    rfl
  · cases rest with
    | nil => cases h
    | cons next rest =>
      obtain ⟨hnext, hrest⟩ := isChain_cons_cons.mp hcons
      have hlt' : (L.append sha256 space device batch.deviceSeq [a]).lastSeq device <
          next.deviceSeq := by
        rw [lastSeq_append, Fin.lt_def]
        omega
      have hwrites₂ := ((specWrites_cons_iff
        ((L.append sha256 space device batch.deviceSeq [a]).checksum device)).mp hwrites).2
      have hbatches := specBatches_failure (answerAsserts_response _)
        (answerAsserts device (L.append sha256 space device batch.deviceSeq [a]) (next :: rest)) h
      rw [specAdmit_of_lt hrest hlt']
      change orExit (specWrites L.leases now _) >>= _ = _
      rw [shipment, orExit_eq_ok_iff.mpr hwrites₂, ok_bind]
      change specBatches _ device (L.log ++ [a]) _ >>= _ = _
      rw [hbatches]
      rfl

end Shipment

/-! ## One by one -/

/-- What a push has come to: the records of its space, the ledger of the server, and what the
loop of `push_space` has to report. -/
structure Progress where
  records : SpaceRecords
  ledger : Space
  acked : Option DeviceSeq
  targetAdmission : Option AdmissionSeq

/-- What `push_space` makes of a refusal of the row `seq` alone. -/
def Progress.refused (p : Progress) (seq : DeviceSeq) : Exit → Except Fault PushRun
  | .response response =>
      match firstFailure response.results with
      | some (failed, error) =>
          .ok (PushRun.stalled (U64.ofNat (seq.val + failed)) error p.acked p.targetAdmission)
      | none => .ok (PushRun.drained p.acked p.targetAdmission)
  | .failure (.kernel (.deviceSeqRegression current _)) => .error (.fork current)
  | .failure (.kernel error) => .ok (PushRun.stalled seq error p.acked p.targetAdmission)
  | .failure (.panic _) => .error .unavailable

/-- The progress made by an admitted request for the rows from `head` to `last`. -/
def Progress.shipped (p : Progress) (through : Option DeviceSeq) (head last : DeviceSeq)
    (response : AdmissionResponse) (L : Space) : Progress :=
  ⟨p.records.trimmed last response.checksum, L, some last,
    revealed through head last response p.targetAdmission⟩

/-- The batches of rows. -/
def batchesOf (rows : List (DeviceSeq × DeviceOp)) : List AdmissionBatch :=
  rows.map fun row => admissionBatch row.1 row.2

variable {rows : List (DeviceSeq × DeviceOp)}

theorem consecutive_batchesOf (h : Successive rows) :
    Consecutive (batchesOf rows) := (isChain_map _).mpr h

section Each

variable (sha256 : Bytes → ByteArr 32) (space : SpaceId) (now : Timestamp) (device : DeviceId)
  (through : Option DeviceSeq)

/-- Ships rows one request each until one is refused. -/
noncomputable def shipEach : List (DeviceSeq × DeviceOp) → Progress →
    Except Fault PushRun × Progress
  | [], p => (.ok (PushRun.drained p.acked p.targetAdmission), p)
  | row :: rest, p =>
      match specAdmit sha256 space p.ledger now (shipment device p.ledger (batchesOf [row])) with
      | .ok (response, L) => shipEach rest (p.shipped through row.1 row.1 response L)
      | .error exit => (p.refused row.1 exit, p)

end Each

section Groups

variable {sha256 : Bytes → ByteArr 32} {space : SpaceId} {now : Timestamp} {device : DeviceId}
  {through : Option DeviceSeq} {p : Progress} {head last : DeviceSeq × DeviceOp}
  {group : List (DeviceSeq × DeviceOp)} {response : AdmissionResponse} {L : Space}

theorem shipEach_admitted
    (h : specAdmit sha256 space p.ledger now (shipment device p.ledger (batchesOf [head])) =
      .ok (response, L)) (rest : List (DeviceSeq × DeviceOp)) :
    shipEach sha256 space now device through (head :: rest) p =
      shipEach sha256 space now device through rest
        (p.shipped through head.1 head.1 response L) := by
  rw [shipEach, h]

theorem shipEach_refused {exit : Exit}
    (h : specAdmit sha256 space p.ledger now (shipment device p.ledger (batchesOf [head])) =
      .error exit) (rest : List (DeviceSeq × DeviceOp)) :
    shipEach sha256 space now device through (head :: rest) p = (p.refused head.1 exit, p) := by
  rw [shipEach, h]

/-- What a group reveals of the target, the first row and the others do. -/
theorem revealed_cons {first next last : DeviceSeq} (hnext : next.val = first.val + 1)
    (hle : next ≤ last) (middle checksum : DeviceChecksum) (seq : AdmissionSeq)
    (more : List AdmissionResult) (known : Option AdmissionSeq) :
    revealed through next last ⟨checksum, more⟩
        (revealed through first first ⟨middle, [.applied seq]⟩ known) =
      revealed through first last ⟨checksum, .applied seq :: more⟩ known := by
  cases through with
  | none => rfl
  | some target =>
    have hle := Fin.le_def.mp hle
    simp only [revealed, Fin.le_def]
    rcases Nat.lt_trichotomy target.val first.val with hlt | heq | hgt
    · rw [if_neg (by omega), if_neg (by omega), if_neg (by omega)]
    · rw [if_neg (by omega), if_pos (by omega), if_pos (by omega), heq, Nat.sub_self]
      rfl
    · rw [if_neg (show ¬ (first.val ≤ target.val ∧ target.val ≤ first.val) by omega)]
      by_cases hin : target.val ≤ last.val
      · rw [if_pos (by omega), if_pos (by omega),
          show target.val - first.val = target.val - next.val + 1 by omega]
        simp [AdmissionResponse.appliedAdmissionSeq]
      · rw [if_neg (by omega), if_neg (by omega)]

/-- An admitted group stands for the requests of its rows. -/
theorem shipEach_group (hchain : Successive (head :: group))
    (hlast : (head :: group).getLast? = some last) (htail : last.1 < p.records.oplogCursors.tail)
    (h : specAdmit sha256 space p.ledger now
      (shipment device p.ledger (batchesOf (head :: group))) = .ok (response, L))
    (more : List (DeviceSeq × DeviceOp)) :
    shipEach sha256 space now device through ((head :: group) ++ more) p =
      shipEach sha256 space now device through more (p.shipped through head.1 last.1 response L) := by
  induction group generalizing head p response L with
  | nil =>
    cases hlast
    exact shipEach_admitted h more
  | cons next group ih =>
    obtain ⟨checksum, results⟩ := response
    obtain ⟨hnext, hrest⟩ := isChain_cons_cons.mp hchain
    obtain ⟨middle, seq, others, L₁, rfl, hone, hothers⟩ :=
      (specAdmit_cons_iff (consecutive_batchesOf hchain)).mp h
    have hmiddle : middle = L₁.checksum device := (specAdmit_eq_ok_iff.mp hothers).1
    rw [getLast?_cons_cons] at hlast
    have hle : next.1 ≤ last.1 := by
      by_cases hnil : group = []
      · subst hnil
        cases hlast
        exact le_rfl
      · exact ((Successive.lt_last hrest hlast).mpr hnil).le
    have hstep := ih (p := p.shipped through head.1 head.1 ⟨middle, [.applied seq]⟩ L₁) hrest hlast
      htail (hmiddle ▸ hothers)
    have hsame : (p.shipped through head.1 head.1 ⟨middle, [.applied seq]⟩ L₁).shipped through
        next.1 last.1 ⟨checksum, others⟩ L =
          p.shipped through head.1 last.1 ⟨checksum, .applied seq :: others⟩ L := by
      have hhead : head.1 ≤ last.1 := Fin.le_def.mpr (by have := Fin.le_def.mp hle; omega)
      simp only [Progress.shipped, trimmed_trimmed hhead htail, revealed_cons hnext hle]
    rw [← hsame, ← hstep]
    exact shipEach_admitted hone _

/-- Where the server breaks down on a group, it does on one of its rows. -/
theorem shipEach_panicked (hchain : Successive (head :: group)) {message : String}
    (h : specAdmit sha256 space p.ledger now
      (shipment device p.ledger (batchesOf (head :: group))) =
        .error (.failure (.panic message)))
    (more : List (DeviceSeq × DeviceOp)) :
    (shipEach sha256 space now device through ((head :: group) ++ more) p).1 =
      .error .unavailable := by
  induction group generalizing head p with
  | nil => exact congrArg Prod.fst (shipEach_refused h more)
  | cons next group ih =>
    obtain ⟨-, hrest⟩ := isChain_cons_cons.mp hchain
    rcases specAdmit_panicked (consecutive_batchesOf hchain) h with hone | ⟨_, L₁, hone, hothers⟩
    · exact congrArg Prod.fst (shipEach_refused hone _)
    · rw [cons_append, shipEach_admitted hone]
      exact ih (p := p.shipped through head.1 head.1 _ L₁) hrest hothers

/-- A first row the device is already past is a fork. -/
theorem shipEach_forked (hle : head.1 ≤ p.ledger.lastSeq device)
    (more : List (DeviceSeq × DeviceOp)) :
    shipEach sha256 space now device through (head :: more) p =
      (.error (.fork (p.ledger.lastSeq device)), p) := by
  have hone : specAdmit sha256 space p.ledger now (shipment device p.ledger (batchesOf [head])) =
      .error (.failure (.kernel (.deviceSeqRegression (p.ledger.lastSeq device) head.1))) :=
    specAdmit_of_le hle
  exact shipEach_refused hone more

end Groups

/-! ## Room -/

variable {sha256 : Bytes → ByteArr 32} {space : SpaceId} {L : Space} {now : Timestamp}
  {device : DeviceId}

/-- A single batch panics only on a counter that would pass `u64::MAX`. -/
theorem specAdmit_one_panic (hlogged : Logged L.log) {batch : AdmissionBatch} {message : String}
    (h : specAdmit sha256 space L now (shipment device L [batch]) =
      .error (.failure (.panic message))) :
    2 ^ 64 ≤ L.log.length + 2 ∨
      2 ^ 64 ≤ countUnder (replay (events L.log)) .full + batch.entries.length := by
  have hlt : L.lastSeq device < batch.deviceSeq := by
    by_contra hle
    rw [specAdmit_of_le (not_lt.mp hle)] at h
    cases h
  rw [specAdmit_of_lt (isChain_singleton _) hlt] at h
  rcases bind_eq_error_iff.mp h with h | ⟨_, -, h⟩
  · exact absurd (orExit_eq_panic h) specWrites_panic
  rcases bind_eq_error_iff.mp h with h | ⟨_, -, h⟩
  swap
  · cases h
  rw [specBatches] at h
  rcases bind_eq_error_iff.mp h with h | ⟨_, -, h⟩
  swap
  · cases h
  unfold specBatch at h
  split at h
  · cases h
  rcases bind_eq_error_iff.mp h with h | ⟨_, -, h⟩
  · exact absurd (orExit_eq_panic h) opIndexOf_panic
  rcases bind_eq_error_iff.mp h with h | ⟨_, -, h⟩
  · refine .inl ?_
    replace h := orExit_eq_panic h
    rw [addOne_eq, hlogged.val_logSeq] at h
    split at h
    · cases h
    · omega
  rcases bind_eq_error_iff.mp h with h | ⟨_, -, h⟩
  · exact .inr (specEntries_panic (orExit_eq_panic h)).2
  · cases h

/-- A server with room for the rows answers every request. -/
theorem shipEach_available {through : Option DeviceSeq} {p : Progress}
    (hlogged : Logged p.ledger.log) (hlog : p.ledger.log.length + rows.length + 1 < 2 ^ 64)
    (hlive : countUnder (replay (events p.ledger.log)) .full +
      (rows.map fun row => row.2.entries.length).sum < 2 ^ 64) :
    (shipEach sha256 space now device through rows p).1 ≠ .error .unavailable := by
  induction rows generalizing p with
  | nil => simp [shipEach]
  | cons row rest ih =>
    rw [length_cons] at hlog
    rw [map_cons, sum_cons] at hlive
    cases hone : specAdmit sha256 space p.ledger now
        (shipment device p.ledger (batchesOf [row])) with
    | ok r =>
      obtain ⟨response, L⟩ := r
      rw [shipEach_admitted hone]
      obtain ⟨-, last, added, -, -, hadded, -, rfl⟩ := specAdmit_eq_ok_iff.mp hone
      have happends := specBatches_appends hlogged hadded
      obtain ⟨a, hbatch, hadded⟩ := of_bind hadded
      cases hadded
      obtain ⟨-, rfl⟩ := specBatch_eq_ok_iff.mp hbatch
      have hcount := countUnder_replay_append_le (events p.ledger.log)
        (Admission.entries ⟨logSeq p.ledger.log, device, admissionBatch row.1 row.2⟩) .full
      rw [length_entries, ← events_concat] at hcount
      refine ih happends.logged ?_ ?_
      · simp only [Progress.shipped, Space.append, length_append, length_singleton]
        omega
      · simp only [admissionBatch] at hcount
        change countUnder (replay (events (p.ledger.log ++ [_]))) .full + _ < _
        exact lt_of_le_of_lt (Nat.add_le_add_right hcount _) (by omega)
    | error exit =>
      rw [shipEach_refused hone]
      cases exit with
      | response response =>
        simp only [Progress.refused]
        split <;> simp
      | failure failure =>
        cases failure with
        | kernel error => cases error <;> simp [Progress.refused]
        | panic message =>
          have hone : specAdmit sha256 space p.ledger now
              (shipment device p.ledger [admissionBatch row.1 row.2]) = _ := hone
          rcases specAdmit_one_panic hlogged hone with hge | hge
          · omega
          · simp only [admissionBatch] at hge
            omega

/-! ## Time -/

/-- Neither the evidence nor the time of a request matters while the same leases are live. -/
theorem specAdmit_still {time : Timestamp}
    (hlive : ∀ id record, L.leases id = some record → record.isLive time = record.isLive now)
    (device : DeviceId) (checksum : DeviceChecksum) (evidence : List LeaseId)
    (batches : List AdmissionBatch) :
    specAdmit sha256 space L time ⟨device, checksum, evidence, batches⟩ =
      specAdmit sha256 space L now ⟨device, checksum, [], batches⟩ := by
  have hblocked : ∀ inWay, Blocked L.leases time device inWay ↔ Blocked L.leases now device inWay :=
    fun inWay => exists_congr fun id => exists_congr fun record =>
      and_congr_right fun hid => by rw [hlive id record hid]
  have hkeys : specKey L.leases time device = specKey L.leases now device :=
    funext fun key => by rw [specKey, specKey, propext (hblocked _)]
  have hranges : specRange L.leases time device = specRange L.leases now device :=
    funext fun range => by rw [specRange, specRange, propext (hblocked _)]
  have hwrites : specWrites L.leases time ⟨device, checksum, evidence, batches⟩ =
      specWrites L.leases now ⟨device, checksum, [], batches⟩ := by
    rw [specWrites, specWrites, hkeys, hranges]
    rfl
  simp only [specAdmit, hwrites]

end Homebase.Properties
