import Homebase.Ledger.Admission

set_option autoImplicit false

/-!
# Ledger: the log of admitted batches

The log is the list of admissions of a space.  Its entries are dense, `1`, `2`,
`3` and so on, each batch is of one device, and the checksum of a device folds
over its own batches.  `specBatches` is the batch loop of admission stated over
the log alone: a batch is checked against everything before it.
-/

namespace Homebase.Ledger

open Foundation Homebase.Core Server List

/-! ## Streams and checksums -/

/-- The batches of one device, in order. -/
def stream (device : DeviceId) (log : List Admission) : List Admission :=
  log.filter fun a => decide (a.device = device)

section Chain

variable (sha256 : Bytes → ByteArr 32) (space : SpaceId)

/-- The checksum of a device after a log: `AdmissionBatch::checksum` folded over
the device's batches. -/
def chain (device : DeviceId) (log : List Admission) : DeviceChecksum :=
  (stream device log).foldl (fun checksum a => a.batch.checksum sha256 checksum space device)
    DeviceChecksum.empty

/-- An admission as `pull` returns it, after the log `pre`. -/
def admittedBatch (pre : List Admission) (a : Admission) : AdmittedBatch where
  admissionSeq := a.seq
  device := a.device
  deviceSeq := a.batch.deviceSeq
  checksum := chain sha256 space a.device (pre ++ [a])
  entries := a.entries

/-- The batches that follow the log `pre`, as `pull` returns them. -/
def admittedFrom : List Admission → List Admission → List AdmittedBatch
  | _, [] => []
  | pre, a :: rest => admittedBatch sha256 space pre a :: admittedFrom (pre ++ [a]) rest

/-- The whole log as `pull` returns it. -/
def admittedBatches (log : List Admission) : List AdmittedBatch := admittedFrom sha256 space [] log

@[simp] theorem chain_nil (device : DeviceId) :
    chain sha256 space device [] = DeviceChecksum.empty := rfl

theorem chain_concat (device : DeviceId) (log : List Admission) (a : Admission) :
    chain sha256 space device (log ++ [a]) =
      if a.device = device then
        a.batch.checksum sha256 (chain sha256 space device log) space device
      else chain sha256 space device log := by
  unfold chain stream
  rw [filter_append, foldl_append]
  by_cases h : a.device = device <;> simp [h]

theorem admittedFrom_append (pre xs ys : List Admission) :
    admittedFrom sha256 space pre (xs ++ ys) =
      admittedFrom sha256 space pre xs ++ admittedFrom sha256 space (pre ++ xs) ys := by
  induction xs generalizing pre with
  | nil => simp [admittedFrom]
  | cons a xs ih => simp [admittedFrom, ih]

theorem admittedBatches_append (xs ys : List Admission) :
    admittedBatches sha256 space (xs ++ ys) =
      admittedBatches sha256 space xs ++ admittedFrom sha256 space xs ys :=
  admittedFrom_append sha256 space [] xs ys

@[simp] theorem length_admittedFrom (pre xs : List Admission) :
    (admittedFrom sha256 space pre xs).length = xs.length := by
  induction xs generalizing pre with
  | nil => rfl
  | cons a xs ih => simp [admittedFrom, ih]

theorem mem_admittedFrom {pre xs : List Admission} {batch : AdmittedBatch}
    (h : batch ∈ admittedFrom sha256 space pre xs) :
    ∃ mid a post, xs = mid ++ a :: post ∧ batch = admittedBatch sha256 space (pre ++ mid) a := by
  induction xs generalizing pre with
  | nil => cases h
  | cons a xs ih =>
    rcases mem_cons.mp h with rfl | h
    · exact ⟨[], a, xs, rfl, by rw [append_nil]⟩
    · obtain ⟨mid, b, post, rfl, rfl⟩ := ih h
      exact ⟨a :: mid, b, post, rfl, by rw [append_assoc]; rfl⟩

theorem admittedBatches_split (pre post : List Admission) (a : Admission) :
    admittedBatches sha256 space (pre ++ a :: post) =
      admittedBatches sha256 space pre ++
        admittedBatch sha256 space pre a :: admittedFrom sha256 space (pre ++ [a]) post := by
  rw [admittedBatches_append]
  rfl

theorem getElem?_admittedFrom (pre xs : List Admission) (i : Nat) :
    (admittedFrom sha256 space pre xs)[i]? =
      xs[i]?.map (admittedBatch sha256 space (pre ++ xs.take i)) := by
  induction xs generalizing pre i with
  | nil => rfl
  | cons a xs ih =>
    cases i with
    | zero => simp [admittedFrom]
    | succ i => simp [admittedFrom, ih]

theorem drop_admittedBatches (pre post : List Admission) (a : Admission) :
    (admittedBatches sha256 space (pre ++ a :: post)).drop pre.length =
      admittedBatch sha256 space pre a ::
        (admittedBatches sha256 space (pre ++ a :: post)).drop (pre.length + 1) := by
  have hlength : (admittedBatches sha256 space pre).length = pre.length :=
    length_admittedFrom sha256 space [] pre
  rw [admittedBatches_split, drop_append_of_le_length hlength.ge, drop_append,
    drop_eq_nil_of_le hlength.le, drop_eq_nil_of_le (by omega), hlength,
    Nat.add_sub_cancel_left]
  rfl

theorem drop_admittedFrom (pre xs : List Admission) (n : Nat) :
    (admittedFrom sha256 space pre xs).drop n =
      admittedFrom sha256 space (pre ++ xs.take n) (xs.drop n) := by
  induction xs generalizing pre n with
  | nil => simp [admittedFrom]
  | cons a xs ih =>
    cases n with
    | zero => simp
    | succ n => simp [admittedFrom, ih]

theorem flatMap_entries_admittedFrom (pre xs : List Admission) :
    (admittedFrom sha256 space pre xs).flatMap AdmittedBatch.entries = events xs := by
  induction xs generalizing pre with
  | nil => rfl
  | cons a xs ih => simp [admittedFrom, ih, events, admittedBatch]

end Chain

/-! ## Events -/

@[simp] theorem events_nil : events [] = [] := rfl

theorem events_append (xs ys : List Admission) : events (xs ++ ys) = events xs ++ events ys :=
  flatMap_append

theorem events_concat (log : List Admission) (a : Admission) :
    events (log ++ [a]) = events log ++ a.entries := by
  simp [events]

/-- The entries of a batch from position `index` on. -/
def entriesFrom (seq : AdmissionSeq) (index : Nat) (entries : List SealedEntry) : List Entry :=
  (entries.zipIdx index).map fun p => ⟨p.1, ⟨seq, U32.ofNat p.2⟩⟩

theorem entriesFrom_cons (seq : AdmissionSeq) (index : Nat) (entry : SealedEntry)
    (entries : List SealedEntry) : entriesFrom seq index (entry :: entries) =
      ⟨entry, ⟨seq, U32.ofNat index⟩⟩ :: entriesFrom seq (index + 1) entries := by
  simp [entriesFrom]

theorem entries_eq_entriesFrom (a : Admission) :
    a.entries = entriesFrom a.seq 0 a.batch.entries := rfl

@[simp] theorem length_entries (a : Admission) : a.entries.length = a.batch.entries.length := by
  simp [Admission.entries]

variable {a : Admission} {e : Entry}

theorem mem_entries_iff :
    e ∈ a.entries ↔ ∃ i entry, a.batch.entries[i]? = some entry ∧
      e = ⟨entry, ⟨a.seq, U32.ofNat i⟩⟩ := by
  simp only [Admission.entries, mem_map, Prod.exists, mem_zipIdx_iff_getElem?]
  constructor
  · rintro ⟨entry, i, h, rfl⟩
    exact ⟨i, entry, h, rfl⟩
  · rintro ⟨i, entry, h, rfl⟩
    exact ⟨entry, i, h, rfl⟩

theorem seq_of_mem_entries (h : e ∈ a.entries) : e.seq = a.seq := by
  obtain ⟨i, entry, -, rfl⟩ := mem_entries_iff.mp h
  rfl

theorem mem_events_iff {log : List Admission} :
    e ∈ events log ↔ ∃ a ∈ log, e ∈ a.entries := mem_flatMap

/-! ## Well-formed logs -/

/-- The sequence of the next admission. -/
def logSeq (log : List Admission) : AdmissionSeq := U64.ofNat (log.length + 1)

/-- What every log of a space satisfies. -/
structure Logged (log : List Admission) : Prop where
  dense : ∀ i a, log[i]? = some a → a.seq.val = i + 1
  short : log.length + 1 < 2 ^ 64
  sized : ∀ a ∈ log, a.batch.entries.length < 2 ^ 32
  tagged : ∀ a ∈ log, ∀ entry ∈ a.batch.entries,
    entry.tag.device = a.device ∧ entry.tag.deviceSeq = a.batch.deviceSeq
  chronicle : Chronicle (events log)
  live : countUnder (replay (events log)) .full < 2 ^ 64
  versioned : (events log).Pairwise Above

namespace Logged

theorem nil : Logged [] where
  dense := by simp
  short := by decide
  sized := by simp
  tagged := by simp
  chronicle := Chronicle.nil
  live := by decide
  versioned := List.Pairwise.nil

variable {log : List Admission} (h : Logged log)

include h

theorem val_logSeq : (logSeq log).val = log.length + 1 := U64.val_ofNat h.short

variable {a : Admission}

theorem seq_le (ha : a ∈ log) : a.seq.val ≤ log.length := by
  obtain ⟨i, hi⟩ := List.mem_iff_getElem?.mp ha
  have hlt := (List.getElem?_eq_some_iff.mp hi).1
  rw [h.dense i a hi]
  omega

theorem seq_lt_logSeq (ha : a ∈ log) : a.seq < logSeq log := by
  rw [Fin.lt_def, h.val_logSeq]
  exact Nat.lt_succ_of_le (h.seq_le ha)

theorem seq_inj {a b : Admission} (ha : a ∈ log) (hb : b ∈ log) (heq : a.seq = b.seq) : a = b := by
  obtain ⟨i, hi⟩ := mem_iff_getElem?.mp ha
  obtain ⟨j, hj⟩ := mem_iff_getElem?.mp hb
  have hij : i = j := by
    have hi' := h.dense i a hi
    have hj' := h.dense j b hj
    rw [heq] at hi'
    omega
  subst hij
  rw [hi] at hj
  exact Option.some.inj hj

variable {pre post : List Admission}

/-- The sequence of an admission is its position, counted from one. -/
theorem seq_of_split (hlog : log = pre ++ a :: post) : a.seq.val = pre.length + 1 :=
  h.dense pre.length a (by rw [hlog, getElem?_append_right (le_refl _), Nat.sub_self]; rfl)

/-- A sequence names one place of the log. -/
theorem split_unique {pre' post' : List Admission} {a a' : Admission}
    (hlog : log = pre ++ a :: post) (hlog' : log = pre' ++ a' :: post') (hseq : a.seq = a'.seq) :
    pre = pre' ∧ a = a' := by
  have hlength : pre.length = pre'.length := by
    have h₁ := h.seq_of_split hlog
    have h₂ := h.seq_of_split hlog'
    rw [hseq] at h₁
    omega
  obtain ⟨hpre, htail⟩ := append_inj (hlog.symm.trans hlog') hlength
  exact ⟨hpre, (List.cons.inj htail).1⟩

theorem device_of_mem_entries (ha : a ∈ log) {e : Entry} (he : e ∈ a.entries) :
    e.device = a.device := by
  obtain ⟨i, entry, hi, rfl⟩ := mem_entries_iff.mp he
  exact (h.tagged a ha entry (mem_of_getElem? hi)).1

/-- The entries of the log after a sequence. -/
theorem filter_events_after (since : AdmissionSeq) (p : Entry → Bool) :
    (events log).filter (fun e => decide (since < e.seq) && p e) =
      (events (log.drop since.val)).filter p := by
  have hold : (events (log.take since.val)).filter (fun e => decide (since < e.seq) && p e) = [] := by
    refine filter_eq_nil_iff.mpr fun e he => ?_
    obtain ⟨a, ha, he⟩ := mem_events_iff.mp he
    obtain ⟨i, hi⟩ := mem_iff_getElem?.mp ha
    rw [getElem?_take] at hi
    split at hi
    next hlt =>
      have hseq := h.dense i a hi
      have hle : ¬ since < e.seq := by
        rw [seq_of_mem_entries he, Fin.lt_def]
        omega
      simp [hle]
    next => cases hi
  have hnew : (events (log.drop since.val)).filter (fun e => decide (since < e.seq) && p e) =
      (events (log.drop since.val)).filter p := by
    refine filter_congr fun e he => ?_
    obtain ⟨a, ha, he⟩ := mem_events_iff.mp he
    obtain ⟨i, hi⟩ := mem_iff_getElem?.mp ha
    rw [getElem?_drop] at hi
    have hseq := h.dense _ a hi
    have hlt : since < e.seq := by
      rw [seq_of_mem_entries he, Fin.lt_def]
      omega
    simp [hlt]
  calc (events log).filter (fun e => decide (since < e.seq) && p e)
      = (events (log.take since.val) ++ events (log.drop since.val)).filter
          (fun e => decide (since < e.seq) && p e) := by
        rw [← events_append, take_append_drop]
    _ = (events (log.drop since.val)).filter p := by
        rw [filter_append, hold, hnew, nil_append]

/-- The log can take a batch of any device next. -/
theorem ready (device : DeviceId) : Ready (events log) (logSeq log) 0 device where
  chronicle := h.chronicle
  seq_ne_zero := by
    intro hzero
    have := h.val_logSeq
    rw [hzero] at this
    cases this
  below := by
    intro d hd
    obtain ⟨a, ha, hda⟩ := mem_events_iff.mp hd
    exact Or.inl (seq_of_mem_entries hda ▸ h.seq_lt_logSeq ha)
  live := h.live
  versioned := h.versioned

end Logged

/-! ## Checking a batch, and the batches of a request -/

/-- What the entries of an accepted batch satisfy. -/
theorem specEntries_ok {device : DeviceId} {deviceSeq : DeviceSeq} {seq : AdmissionSeq}
    {es : List Entry} {index : Nat} {entries : List SealedEntry} {added : List Entry}
    (hr : Ready es seq index device)
    (h : specEntries device deviceSeq seq es index entries = .ok added) :
    added = entriesFrom seq index entries ∧
      Ready (es ++ added) seq (index + entries.length) device ∧
      ∀ entry ∈ entries, entry.tag.device = device ∧ entry.tag.deviceSeq = deviceSeq := by
  induction entries generalizing es index added with
  | nil =>
    cases h
    exact ⟨rfl, by simpa using hr, by simp⟩
  | cons entry entries ih =>
    rw [specEntries] at h
    obtain ⟨e, he, h⟩ := of_bind h
    obtain ⟨rest, hrest, h⟩ := of_bind h
    cases h
    have hacc := specEntry_eq_ok_iff.mp he
    obtain ⟨hadded, hready, htags⟩ := ih (hacc.ready hr) hrest
    refine ⟨by rw [entriesFrom_cons, hadded, hacc.eq], ?_, ?_⟩
    · rw [length_cons, Nat.add_comm entries.length, ← Nat.add_assoc]
      rwa [append_assoc] at hready
    · intro entry' hmem
      rcases mem_cons.mp hmem with rfl | hmem
      · exact ⟨hacc.device_eq, hacc.deviceSeq_eq⟩
      · exact htags entry' hmem

section Batches

variable (reject : List RangeAssertFailure → Exit) (device : DeviceId)

/-- The checks of one batch against the log before it. -/
def specBatch (log : List Admission) (batch : AdmissionBatch) : Except Exit Admission :=
  if assertFailures (events log) device batch ≠ [] then
    .error (reject (assertFailures (events log) device batch))
  else do
    let _ ← orExit (opIndexOf batch.entries.length)
    let _ ← orExit (addOne (logSeq log))
    let _ ← orExit (specEntries device batch.deviceSeq (logSeq log) (events log) 0 batch.entries)
    .ok ⟨logSeq log, device, batch⟩

/-- The checks of the batches of a request, each against the log before it. -/
def specBatches : List Admission → List AdmissionBatch → Except Exit (List Admission)
  | _, [] => .ok []
  | log, batch :: rest => do
      let a ← specBatch reject device log batch
      let more ← specBatches (log ++ [a]) rest
      .ok (a :: more)

end Batches

theorem orExit_eq_ok_iff {α : Type} {x : Except Failure α} {a : α} :
    orExit x = .ok a ↔ x = .ok a := by
  cases x <;> simp [orExit]

theorem addOne_eq (value : U64) : addOne value =
    if value.val + 1 < 2 ^ 64 then .ok (U64.ofNat (value.val + 1))
    else .error (.panic "attempt to add with overflow") := by
  have hone : (1 : U64).val = 1 := rfl
  rw [addOne, U64.checkedAdd, hone]
  split
  next h => rw [U64.tryFrom_of_lt h, expect_some]
  next h =>
    rw [U64.tryFrom_of_le (not_lt.mp h)]
    rfl

theorem addOne_ofNat_of_lt {n : Nat} (h : n + 1 < 2 ^ 64) :
    addOne (U64.ofNat n) = .ok (U64.ofNat (n + 1)) := by
  rw [addOne_eq, U64.val_ofNat (by omega), if_pos h]

/-- A successful increment does not wrap around. -/
theorem val_of_addOne {value next : U64} (h : addOne value = .ok next) :
    next.val = value.val + 1 := by
  rw [addOne_eq] at h
  split at h
  next hlt =>
    cases h
    exact U64.val_ofNat hlt
  next => cases h

section Batches

variable {reject : List RangeAssertFailure → Exit} {device : DeviceId} {log : List Admission}

/-- The batch passes every check against the log. -/
structure BatchAccepted (device : DeviceId) (log : List Admission) (batch : AdmissionBatch) :
    Prop where
  asserts : assertFailures (events log) device batch = []
  sized : batch.entries.length < 2 ^ 32
  next : ∃ next, addOne (logSeq log) = .ok next
  entries : ∃ added,
    specEntries device batch.deviceSeq (logSeq log) (events log) 0 batch.entries = .ok added

theorem exists_opIndexOf_iff {n : Nat} : (∃ value, opIndexOf n = .ok value) ↔ n < 2 ^ 32 := by
  constructor
  · rintro ⟨value, h⟩
    by_contra hge
    rw [opIndexOf_of_le (not_lt.mp hge)] at h
    cases h
  · intro h
    exact ⟨_, opIndexOf_of_lt h⟩

variable {batch : AdmissionBatch}

/-- A batch is accepted exactly when every check passes. -/
theorem specBatch_eq_ok_iff {a : Admission} :
    specBatch reject device log batch = .ok a ↔
      BatchAccepted device log batch ∧ a = ⟨logSeq log, device, batch⟩ := by
  unfold specBatch
  constructor
  · intro h
    split at h
    next => cases h
    next hnil =>
      obtain ⟨count, hcount, h⟩ := of_bind h
      obtain ⟨next, hnext, h⟩ := of_bind h
      obtain ⟨added, hadded, h⟩ := of_bind h
      cases h
      exact ⟨⟨not_not.mp hnil, exists_opIndexOf_iff.mp ⟨count, orExit_eq_ok_iff.mp hcount⟩,
        ⟨next, orExit_eq_ok_iff.mp hnext⟩, ⟨added, orExit_eq_ok_iff.mp hadded⟩⟩, rfl⟩
  · rintro ⟨⟨hnil, hsize, ⟨next, hnext⟩, ⟨added, hadded⟩⟩, rfl⟩
    obtain ⟨count, hcount⟩ := exists_opIndexOf_iff.mpr hsize
    rw [if_neg (not_not.mpr hnil), hcount, hnext, hadded]
    rfl

/-- An accepted batch extends the log. -/
theorem BatchAccepted.logged (ha : BatchAccepted device log batch) (h : Logged log) :
    Logged (log ++ [⟨logSeq log, device, batch⟩]) := by
  obtain ⟨-, hsize, ⟨next, hnext⟩, ⟨added, hadded⟩⟩ := ha
  obtain ⟨hentries, hready, htags⟩ := specEntries_ok (h.ready device) hadded
  have hevents : events (log ++ [⟨logSeq log, device, batch⟩]) = events log ++ added := by
    rw [events_concat, entries_eq_entriesFrom, hentries]
  have hval := val_of_addOne hnext
  rw [h.val_logSeq] at hval
  refine ⟨fun i a hi => ?_, ?_, ?_, ?_, hevents ▸ hready.chronicle, hevents ▸ hready.live,
    hevents ▸ hready.versioned⟩
  · rw [getElem?_append] at hi
    split at hi
    · exact h.dense i a hi
    · rename_i hge
      obtain ⟨hlt, rfl⟩ := List.getElem?_eq_some_iff.mp hi
      rw [length_singleton] at hlt
      have hi : i = log.length := by omega
      subst hi
      simpa using h.val_logSeq
  · rw [length_append, length_singleton]
    have := next.isLt
    omega
  · intro a ha
    rcases mem_append.mp ha with ha | ha
    · exact h.sized a ha
    · rw [mem_singleton.mp ha]
      exact hsize
  · intro a ha
    rcases mem_append.mp ha with ha | ha
    · exact h.tagged a ha
    · rw [mem_singleton.mp ha]
      exact htags

/-- What the accepted batches of a request satisfy. -/
structure Appends (device : DeviceId) (log : List Admission) (batches : List AdmissionBatch)
    (added : List Admission) : Prop where
  logged : Logged (log ++ added)
  own : ∀ a ∈ added, a.device = device
  batches : added.map Admission.batch = batches

variable {batches : List AdmissionBatch} {added : List Admission}

theorem specBatches_appends (h : Logged log)
    (ha : specBatches reject device log batches = .ok added) :
    Appends device log batches added := by
  induction batches generalizing log added with
  | nil =>
    cases ha
    exact ⟨by simpa using h, by simp, rfl⟩
  | cons batch rest ih =>
    rw [specBatches] at ha
    obtain ⟨a, hbatch, ha⟩ := of_bind ha
    obtain ⟨more, hmore, ha⟩ := of_bind ha
    cases ha
    obtain ⟨hacc, rfl⟩ := specBatch_eq_ok_iff.mp hbatch
    have hrest := ih (hacc.logged h) hmore
    refine ⟨?_, ?_, by rw [map_cons, hrest.batches]⟩
    · simpa using hrest.logged
    · intro a ha
      rcases mem_cons.mp ha with rfl | ha
      · rfl
      · exact hrest.own a ha

/-- Whether batches are admitted does not depend on how a violated assertion is
answered. -/
theorem specBatches_ok_of_ok {reject' : List RangeAssertFailure → Exit}
    (h : specBatches reject device log batches = .ok added) :
    specBatches reject' device log batches = .ok added := by
  induction batches generalizing log added with
  | nil => exact h
  | cons batch rest ih =>
    rw [specBatches] at h ⊢
    obtain ⟨a, hbatch, h⟩ := of_bind h
    obtain ⟨more, hmore, h⟩ := of_bind h
    have hbatch' : specBatch reject' device log batch = .ok a :=
      specBatch_eq_ok_iff.mpr (specBatch_eq_ok_iff.mp hbatch)
    rw [hbatch', ok_bind, ih hmore, ok_bind]
    exact h

/-- Batches are admitted one after another. -/
theorem specBatches_append (pre rest : List AdmissionBatch) :
    specBatches reject device log (pre ++ rest) = (do
      let first ← specBatches reject device log pre
      let more ← specBatches reject device (log ++ first) rest
      .ok (first ++ more)) := by
  induction pre generalizing log with
  | nil =>
    rw [nil_append, specBatches, ok_bind, append_nil]
    cases specBatches reject device log rest <;> rfl
  | cons batch pre ih =>
    rw [cons_append, specBatches, specBatches]
    cases hbatch : specBatch reject device log batch with
    | error exit => rfl
    | ok a =>
      rw [ok_bind, ok_bind, ih]
      cases hpre : specBatches reject device (log ++ [a]) pre with
      | error exit => rfl
      | ok first =>
        simp only [ok_bind, append_assoc, cons_append, nil_append]
        cases specBatches reject device (log ++ a :: first) rest <;> rfl

end Batches

end Homebase.Ledger
