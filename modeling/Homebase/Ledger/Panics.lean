import Homebase.Ledger.State

set_option autoImplicit false

/-!
# Ledger: what an admission can panic on

The checked arithmetic of an admission panics in two places: a sequence number
that would pass `u64::MAX`, and a live count that would.  Nothing else of an
admission panics; in particular no live count is ever taken below zero.
-/

namespace Homebase.Ledger

open Foundation Homebase.Core Server List

/-! ## How fast the number of visible keys grows -/

theorem countUnder_applyEvent_le (live : OrdMap Key Entry) (e : Entry) (range : Range) :
    countUnder (applyEvent live e) range ≤ countUnder live range + 1 := by
  cases hk : e.mutation.pointKey with
  | some key =>
    have h := countUnder_point live hk range
    split at h <;> (try split at h) <;> (try split at h) <;> omega
  | none =>
    cases hm : e.mutation with
    | deleteRange target =>
      simp only [applyEvent, hm, countUnder, OrdMap.count_retain]
      refine Nat.le_succ_of_le (live.count_mono fun key hkey => ?_)
      exact (Bool.and_eq_true_iff.mp hkey).1
    | set key value => rw [hm] at hk; cases hk
    | delete key => rw [hm] at hk; cases hk

theorem countUnder_replay_append_le (es more : List Entry) (range : Range) :
    countUnder (replay (es ++ more)) range ≤ countUnder (replay es) range + more.length := by
  induction more generalizing es with
  | nil => simp
  | cons e more ih =>
    have hone := countUnder_applyEvent_le (replay es) e range
    have hrest := ih (es ++ [e])
    rw [replay_concat, append_assoc, singleton_append] at hrest
    rw [length_cons]
    omega

/-! ## The panics of an admission -/

/-- The panics of an admission during which at most `bound` keys are visible. -/
inductive AdmitPanic (bound : Nat) : String → Prop where
  | overflow : AdmitPanic bound "attempt to add with overflow"
  | count (h : 2 ^ 64 ≤ bound) :
      AdmitPanic bound "live count underflow: aggregates diverged from visible point state"

theorem AdmitPanic.mono {a b : Nat} {message : String} (h : AdmitPanic a message) (hle : a ≤ b) :
    AdmitPanic b message := by
  cases h with
  | overflow => exact .overflow
  | count h => exact .count (h.trans hle)

theorem AdmitPanic.message {bound : Nat} {message : String} (h : AdmitPanic bound message) :
    message = "attempt to add with overflow" ∨
      (message = "live count underflow: aggregates diverged from visible point state" ∧
        2 ^ 64 ≤ bound) := by
  cases h with
  | overflow => exact Or.inl rfl
  | count h => exact Or.inr ⟨rfl, h⟩

theorem addOne_panic {value : U64} {failure : Failure} (h : addOne value = .error failure) :
    failure = .panic "attempt to add with overflow" := by
  rw [addOne_eq] at h
  split at h
  · cases h
  · exact (Except.error.inj h).symm

variable {index : Nat}

theorem opIndexOf_panic {message : String} : opIndexOf index ≠ .error (.panic message) := by
  unfold opIndexOf
  split <;> simp

variable {es : List Entry}

theorem checkVersion_panic {e : Entry} {message : String} :
    checkVersion es e ≠ .error (.panic message) := by
  unfold checkVersion
  split <;> split <;> simp

variable {device : DeviceId} {deviceSeq : DeviceSeq} {seq : AdmissionSeq}

theorem specEntry_panic {entry : SealedEntry} {message : String}
    (h : specEntry es device deviceSeq seq index entry = .error (.panic message)) :
    message = "live count underflow: aggregates diverged from visible point state" ∧
      2 ^ 64 ≤ countUnder (replay es) .full + 1 := by
  unfold specEntry at h
  rcases bind_eq_error_iff.mp h with h | ⟨opIndex, -, h⟩
  · exact absurd h opIndexOf_panic
  split at h
  next => cases h
  next =>
    split at h
    next => cases h
    next =>
      rcases bind_eq_error_iff.mp h with h | ⟨_, -, h⟩
      · rcases bind_eq_error_iff.mp h with h | ⟨_, -, h⟩
        · exact absurd h checkVersion_panic
        · unfold checkCount at h
          split at h
          next => cases h
          next hge =>
            obtain rfl := Failure.panic.inj (Except.error.inj h)
            rw [replay_concat] at hge
            have hle := countUnder_applyEvent_le (replay es) ⟨entry, ⟨seq, opIndex⟩⟩ .full
            exact ⟨rfl, by omega⟩
      · cases h

/-- The entries of a batch panic only on a live count. -/
theorem specEntries_panic {entries : List SealedEntry} {message : String}
    (h : specEntries device deviceSeq seq es index entries = .error (.panic message)) :
    message = "live count underflow: aggregates diverged from visible point state" ∧
      2 ^ 64 ≤ countUnder (replay es) .full + entries.length := by
  induction entries generalizing es index with
  | nil => cases h
  | cons entry entries ih =>
    rw [specEntries] at h
    rcases bind_eq_error_iff.mp h with h | ⟨e, -, h⟩
    · refine (specEntry_panic h).imp_right fun hge => ?_
      rw [length_cons]
      omega
    rcases bind_eq_error_iff.mp h with h | ⟨_, -, h⟩
    · have hle := countUnder_replay_append_le es [e] .full
      refine (ih h).imp_right fun hge => ?_
      simp only [length_cons, length_nil] at hle ⊢
      omega
    · cases h

section Batches

variable {reject : List RangeAssertFailure → Exit} {device : DeviceId} {message : String}

theorem orExit_eq_panic {α : Type} {x : Except Failure α}
    (h : orExit x = .error (.failure (.panic message))) : x = .error (.panic message) := by
  cases x with
  | ok a => cases h
  | error failure => exact congrArg Except.error (Exit.failure.inj (Except.error.inj h))

variable {log : List Admission}

theorem specBatch_panic (hreject : ∀ failures, ∃ response, reject failures = .response response)
    {batch : AdmissionBatch}
    (h : specBatch reject device log batch = .error (.failure (.panic message))) :
    AdmitPanic (countUnder (replay (events log)) .full + batch.entries.length) message := by
  unfold specBatch at h
  split at h
  next =>
    obtain ⟨response, hresponse⟩ := hreject (assertFailures (events log) device batch)
    rw [hresponse] at h
    cases h
  next =>
    rcases bind_eq_error_iff.mp h with h | ⟨_, -, h⟩
    · exact absurd (orExit_eq_panic h) opIndexOf_panic
    rcases bind_eq_error_iff.mp h with h | ⟨_, -, h⟩
    · obtain rfl := Failure.panic.inj (addOne_panic (orExit_eq_panic h))
      exact .overflow
    rcases bind_eq_error_iff.mp h with h | ⟨_, -, h⟩
    · obtain ⟨rfl, hge⟩ := specEntries_panic (orExit_eq_panic h)
      exact .count hge
    · cases h

theorem specBatches_panic (hreject : ∀ failures, ∃ response, reject failures = .response response)
    {batches : List AdmissionBatch}
    (h : specBatches reject device log batches = .error (.failure (.panic message))) :
    AdmitPanic (countUnder (replay (events log)) .full +
      (batches.map fun batch => batch.entries.length).sum) message := by
  induction batches generalizing log with
  | nil => cases h
  | cons batch rest ih =>
    rw [specBatches] at h
    rw [map_cons, sum_cons]
    rcases bind_eq_error_iff.mp h with h | ⟨a, ha, h⟩
    · exact (specBatch_panic hreject h).mono (by omega)
    rcases bind_eq_error_iff.mp h with h | ⟨_, -, h⟩
    · obtain ⟨-, rfl⟩ := specBatch_eq_ok_iff.mp ha
      have hle := countUnder_replay_append_le (events log)
        (Admission.entries ⟨logSeq log, device, batch⟩) .full
      rw [length_entries, ← events_concat] at hle
      dsimp only at hle
      exact (ih h).mono (by omega)
    · cases h

end Batches

theorem checkDeviceSeqs_panic {first : Bool} {last : DeviceSeq} {batches : List AdmissionBatch}
    {message : String} (h : checkDeviceSeqs first last batches = .error (.panic message)) :
    message = "attempt to add with overflow" := by
  induction batches generalizing first last with
  | nil => cases h
  | cons batch rest ih =>
    unfold checkDeviceSeqs at h
    split at h
    next => cases h
    next =>
      split at h
      next => exact ih h
      next =>
        rcases bind_eq_error_iff.mp h with h | ⟨next, -, h⟩
        · exact Failure.panic.inj (addOne_panic h)
        · split at h
          · cases h
          · exact ih h

theorem forM_ne_panic {α : Type} {f : α → Except Failure Unit} {message : String}
    (hf : ∀ a, f a ≠ .error (.panic message)) (l : List α) :
    l.forM f ≠ .error (.panic message) := by
  induction l with
  | nil => intro h; cases h
  | cons a l ih =>
    change (f a >>= fun _ => l.forM f) ≠ _
    intro h
    rcases bind_eq_error_iff.mp h with h | ⟨_, -, h⟩
    · exact hf a h
    · exact ih h

variable {now : Timestamp} {req : AdmissionRequest}

theorem specWrites_panic {leases : Leases} {message : String} :
    specWrites leases now req ≠ .error (.panic message) := by
  intro h
  rw [specWrites] at h
  rcases bind_eq_error_iff.mp h with h | ⟨_, -, h⟩
  · exact forM_ne_panic (fun key => by unfold specKey; split <;> simp) _ h
  · exact forM_ne_panic (fun range => by unfold specRange; split <;> simp) _ h

/-- An admission panics only on a counter that would pass `u64::MAX`. -/
theorem specAdmit_panic {sha256 : Bytes → ByteArr 32} {space : SpaceId} {L : Space}
    {message : String} (h : specAdmit sha256 space L now req = .error (.failure (.panic message))) :
    AdmitPanic (countUnder (replay (events L.log)) .full +
      (req.batches.map fun batch => batch.entries.length).sum) message := by
  unfold specAdmit at h
  split at h
  next => cases h
  next =>
    rcases bind_eq_error_iff.mp h with h | ⟨_, -, h⟩
    · obtain rfl := checkDeviceSeqs_panic (orExit_eq_panic h)
      exact .overflow
    rcases bind_eq_error_iff.mp h with h | ⟨_, -, h⟩
    · exact absurd (orExit_eq_panic h) specWrites_panic
    rcases bind_eq_error_iff.mp h with h | ⟨_, -, h⟩
    · exact specBatches_panic (fun failures => ⟨_, rfl⟩) h
    · cases h

end Homebase.Ledger
