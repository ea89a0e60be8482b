import Homebase.Ledger.Aggregate

set_option autoImplicit false

/-!
# Ledger: what admission checks

The rules of admission as statements about the entries admitted so far: the
version floor of a key or a range, the bound on the live count, and the range
assertions of a batch.  A batch is checked against the log immediately before
it, an entry against everything before it, earlier entries of its own batch and
of the same request included.
-/

namespace Homebase.Ledger

open Foundation Homebase.Core Server List

/-- The version a point operation has to exceed: that of the last point operation
on the key and those of all range deletions that cover it. -/
def pointFloor (es : List Entry) (key : Key) : Option Ver :=
  max ((lastPoint es key).map AdmittedEntry.ver) (topVer? (rangeCoversKey key) es)

/-- The version a range deletion has to exceed: those of all relevant entries. -/
def rangeFloor (es : List Entry) (range : Range) : Option Ver := topVer? (relevant range) es

/-- The version check of one entry. -/
def checkVersion (es : List Entry) (e : Entry) : Except Failure Unit :=
  match e.mutation with
  | .set key _ | .delete key =>
      match (pointFloor es key).filter fun current => decide (e.ver ≤ current) with
      | some current => .error (.kernel (.verRegression key current e.ver))
      | none => .ok ()
  | .deleteRange range =>
      match (rangeFloor es range).filter fun current => decide (e.ver ≤ current) with
      | some current => .error (.kernel (.rangeVerRegression range current e.ver))
      | none => .ok ()

/-- Live counts are words: the entry must not make more keys visible. -/
def checkCount (es : List Entry) (e : Entry) : Except Failure Unit :=
  if countUnder (replay (es ++ [e])) .full < 2 ^ 64 then .ok ()
  else .error (.panic "live count underflow: aggregates diverged from visible point state")

/-- The checks that depend on the entries admitted before. -/
def checkAgainst (es : List Entry) (e : Entry) : Except Failure Unit := do
  checkVersion es e
  checkCount es e

/-- The checks of one entry of a batch; returns the admitted entry. -/
def specEntry (es : List Entry) (device : DeviceId) (deviceSeq : DeviceSeq) (seq : AdmissionSeq)
    (index : Nat) (entry : SealedEntry) : Except Failure Entry := do
  let opIndex ← opIndexOf index
  if entry.tag.device ≠ device ∨ entry.tag.deviceSeq ≠ deviceSeq then
    .error (.kernel (.invalidSeal "device entry tag does not match its admission batch"))
  else
    match entry.sealing.validatePayload with
    | .error reason => .error (.kernel (.invalidSeal reason))
    | .ok () => do
        let admitted : Entry := ⟨entry, ⟨seq, opIndex⟩⟩
        checkAgainst es admitted
        .ok admitted

/-- The checks of the entries of a batch, from position `index`. -/
def specEntries (device : DeviceId) (deviceSeq : DeviceSeq) (seq : AdmissionSeq) :
    List Entry → Nat → List SealedEntry → Except Failure (List Entry)
  | _, _, [] => .ok []
  | es, index, entry :: rest => do
      let admitted ← specEntry es device deviceSeq seq index entry
      let admittedRest ← specEntries device deviceSeq seq (es ++ [admitted]) (index + 1) rest
      .ok (admitted :: admittedRest)

/-- How a range assertion is violated, if it is. -/
def assertFailure (es : List Entry) (device : DeviceId) (assertion : RangeAssert) :
    Option RangeAssertFailure :=
  let actual := foreignMax es (.prefixed assertion.assertPrefix) device
  if actual > assertion.upto then some ⟨assertion.assertPrefix, assertion.upto, actual⟩ else none

/-- The violated range assertions of a batch. -/
def assertFailures (es : List Entry) (device : DeviceId) (batch : AdmissionBatch) :
    List RangeAssertFailure :=
  batch.rangeAsserts.filterMap (assertFailure es device)

/-! ## What the version checks achieve -/

/-- The entry fixes a version of the key: a point operation on it, or a range
deletion that covers it. -/
def pins (key : Key) (e : Entry) : Bool := pointOn key e || rangeCoversKey key e

/-- A later entry is above an earlier one wherever versions are compared. -/
structure Above (d e : Entry) : Prop where
  point : ∀ key, pins key d = true → pins key e = true → d.ver < e.ver
  range : ∀ range, e.mutation = .deleteRange range → relevant range d = true → d.ver < e.ver

variable {ver : Ver}

theorem filter_le_eq_none_iff {floor : Option Ver} :
    (floor.filter fun current => decide (ver ≤ current)) = none ↔
      (floor.all fun current => decide (current < ver)) = true := by
  cases floor <;> simp

variable {es : List Entry} {e : Entry} {key : Key}

/-- The version check of a point operation, as a bound on what it has to exceed. -/
theorem checkVersion_point (hk : e.mutation.pointKey = some key) : checkVersion es e =
      match (pointFloor es key).filter fun current => decide (e.ver ≤ current) with
      | some current => .error (.kernel (.verRegression key current e.ver))
      | none => .ok () := by
  unfold checkVersion
  cases hm : e.mutation with
  | set k value => rw [hm] at hk; cases hk; rfl
  | delete k => rw [hm] at hk; cases hk; rfl
  | deleteRange range => rw [hm] at hk; cases hk

variable {range : Range}

theorem checkVersion_range (hmut : e.mutation = .deleteRange range) :
    checkVersion es e =
      match (rangeFloor es range).filter fun current => decide (e.ver ≤ current) with
      | some current => .error (.kernel (.rangeVerRegression range current e.ver))
      | none => .ok () := by
  simp only [checkVersion, hmut]

variable {d : Entry}

theorem lt_of_topVer?_all {p : Entry → Bool}
    (h : ((topVer? p es).all fun current => decide (current < ver)) = true) (hd : d ∈ es)
    (hp : p d = true) : d.ver < ver :=
  max?_all_lt_iff.mp h d.ver (mem_map_of_mem (mem_filter.mpr ⟨hd, hp⟩))

/-- Where versions rise, the last point operation on a key has the greatest one. -/
theorem le_lastPoint_ver (hv : es.Pairwise Above) (hd : d ∈ es) (hp : pointOn key d = true) :
    ∃ l, lastPoint es key = some l ∧ d.ver ≤ l.ver := by
  induction es using List.reverseRecOn with
  | nil => cases hd
  | append_singleton es e ih =>
    obtain ⟨hes, -, hlast⟩ := pairwise_append.mp hv
    rw [lastPoint_concat]
    rcases mem_append.mp hd with hd | hd
    · split
      next he =>
        have hlt := (hlast d hd e (mem_singleton_self e)).point key
          (by simp [pins, hp]) (by simp [pins, he])
        exact ⟨e, rfl, hlt.le⟩
      next => exact ih hes hd
    · rw [mem_singleton.mp hd] at hp ⊢
      exact ⟨e, if_pos hp, le_rfl⟩

/-- What pins a covered key is relevant to the range. -/
theorem relevant_of_pins (hp : pins key d = true) (hcov : range.coversKey key = true) :
    relevant range d = true := by
  unfold pins pointOn rangeCoversKey at hp
  unfold relevant mutationRelevant
  cases hm : d.mutation with
  | set k value =>
    simp only [hm, Mutation.pointKey, Option.some.injEq, Bool.or_false, decide_eq_true_eq] at hp
    rw [hp]
    exact hcov
  | delete k =>
    simp only [hm, Mutation.pointKey, Option.some.injEq, Bool.or_false, decide_eq_true_eq] at hp
    rw [hp]
    exact hcov
  | deleteRange target =>
    simp only [hm, Mutation.pointKey, reduceCtorEq, decide_false, Bool.false_or] at hp
    exact Range.overlaps_of_coversKey hcov hp

/-- An entry that passes its version check is above everything before it. -/
theorem above_of_checkVersion (hv : es.Pairwise Above) (h : checkVersion es e = .ok ())
    (hd : d ∈ es) : Above d e := by
  cases hk : e.mutation.pointKey with
  | some key =>
    rw [checkVersion_point hk] at h
    have hfloor : ((pointFloor es key).all fun current => decide (current < e.ver)) = true := by
      rw [← filter_le_eq_none_iff]
      split at h
      · cases h
      · assumption
    obtain ⟨hpoints, hranges⟩ := all_max_lt_iff.mp hfloor
    refine ⟨fun key' hpd hpe => ?_, fun range hmut => ?_⟩
    · -- a point operation pins its own key only
      have hkey : key' = key := by
        have hnot : rangeCoversKey key' e = false := by
          unfold rangeCoversKey
          cases hm : e.mutation with
          | set k value => rfl
          | delete k => rfl
          | deleteRange range => rw [hm] at hk; cases hk
        rw [pins, hnot, Bool.or_false, pointOn, hk, decide_eq_true_eq] at hpe
        exact (Option.some.inj hpe).symm
      subst hkey
      rcases (Bool.or_eq_true _ _).mp hpd with hp | hr
      · obtain ⟨l, hl, hle⟩ := le_lastPoint_ver hv hd hp
        rw [hl, Option.map_some, Option.all_some, decide_eq_true_eq] at hpoints
        exact lt_of_le_of_lt hle hpoints
      · exact lt_of_topVer?_all hranges hd hr
    · rw [hmut] at hk
      cases hk
  | none =>
    cases hm : e.mutation with
    | set k value => rw [hm] at hk; cases hk
    | delete k => rw [hm] at hk; cases hk
    | deleteRange range =>
      rw [checkVersion_range hm] at h
      have hfloor : ((rangeFloor es range).all fun current => decide (current < e.ver)) = true := by
        rw [← filter_le_eq_none_iff]
        split at h
        · cases h
        · assumption
      refine ⟨fun key hpd hpe => ?_, fun range' hmut hrel => ?_⟩
      · have hcov : range.coversKey key = true := by
          have hnot : pointOn key e = false := by rw [pointOn, hk]; rfl
          rwa [pins, hnot, Bool.false_or, rangeCoversKey, hm] at hpe
        refine lt_of_topVer?_all hfloor hd (relevant_of_pins hpd hcov)
      · rw [hm] at hmut
        cases hmut
        exact lt_of_topVer?_all hfloor hd hrel

/-! ## Where the next entry goes -/

/-- The chronicle can take an entry of the device at position `index` of the
sequence. -/
structure Ready (es : List Entry) (seq : AdmissionSeq) (index : Nat) (device : DeviceId) :
    Prop where
  chronicle : Chronicle es
  seq_ne_zero : seq ≠ 0
  below : ∀ d ∈ es, d.seq < seq ∨
    (d.seq = seq ∧ d.admission.opIndex.val < index ∧ d.device = device)
  live : countUnder (replay es) .full < 2 ^ 64
  versioned : es.Pairwise Above

/-- What an accepted entry satisfies. -/
structure Accepted (es : List Entry) (device : DeviceId) (deviceSeq : DeviceSeq)
    (seq : AdmissionSeq) (index : Nat) (entry : SealedEntry) (e : Entry) : Prop where
  index_lt : index < 2 ^ 32
  eq : e = ⟨entry, ⟨seq, U32.ofNat index⟩⟩
  device_eq : entry.tag.device = device
  deviceSeq_eq : entry.tag.deviceSeq = deviceSeq
  sealed : entry.sealing.payload = []
  version : checkVersion es e = .ok ()
  count : countUnder (replay (es ++ [e])) .full < 2 ^ 64

variable {index : Nat}

theorem opIndexOf_of_lt (h : index < 2 ^ 32) : opIndexOf index = .ok (U32.ofNat index) := by
  rw [opIndexOf, U32.tryFrom_of_lt h]

theorem opIndexOf_of_le (h : 2 ^ 32 ≤ index) :
    opIndexOf index = .error (.kernel (.invalidSeal "admission batch has too many entries")) := by
  rw [opIndexOf, U32.tryFrom_of_le h]

theorem checkCount_eq_ok_iff :
    checkCount es e = .ok () ↔ countUnder (replay (es ++ [e])) .full < 2 ^ 64 := by
  unfold checkCount
  split <;> simp_all

/-- An entry is accepted exactly when every check passes. -/
theorem specEntry_eq_ok_iff {device : DeviceId} {deviceSeq : DeviceSeq} {seq : AdmissionSeq}
    {entry : SealedEntry} :
    specEntry es device deviceSeq seq index entry = .ok e ↔
      Accepted es device deviceSeq seq index entry e := by
  unfold specEntry
  constructor
  · intro h
    obtain ⟨opIndex, hop, h⟩ := of_bind h
    have hidx : index < 2 ^ 32 := by
      by_contra hge
      rw [opIndexOf_of_le (not_lt.mp hge)] at hop
      cases hop
    rw [opIndexOf_of_lt hidx] at hop
    cases hop
    obtain ⟨htag, h⟩ := of_guard h
    obtain ⟨hdev, hseq⟩ := not_or.mp htag
    split at h
    next => cases h
    next hpayload =>
      obtain ⟨_, hcheck, h⟩ := of_bind h
      obtain ⟨_, hver, hcount⟩ := of_bind hcheck
      cases h
      exact ⟨hidx, rfl, not_not.mp hdev, not_not.mp hseq,
        (Seal.validatePayload_eq_ok_iff _).mp hpayload, hver, checkCount_eq_ok_iff.mp hcount⟩
  · intro h
    obtain ⟨hidx, rfl, hdev, hseq, hpayload, hver, hcount⟩ := h
    have htag : ¬ (entry.tag.device ≠ device ∨ entry.tag.deviceSeq ≠ deviceSeq) := by
      simp [hdev, hseq]
    simp only [opIndexOf_of_lt hidx, ok_bind, if_neg htag,
      (Seal.validatePayload_eq_ok_iff _).mpr hpayload, checkAgainst, hver, checkCount_eq_ok_iff.mpr hcount]

section Accepted

variable {es : List Entry} {device : DeviceId} {deviceSeq : DeviceSeq} {seq : AdmissionSeq}
  {index : Nat} {entry : SealedEntry} {e : Entry}

theorem Accepted.entry_device (h : Accepted es device deviceSeq seq index entry e) :
    e.device = device := by
  rw [h.eq]
  exact h.device_eq

theorem Accepted.entry_seq (h : Accepted es device deviceSeq seq index entry e) : e.seq = seq := by
  rw [h.eq]
  rfl

theorem Accepted.entry_opIndex (h : Accepted es device deviceSeq seq index entry e) :
    e.admission.opIndex.val = index := by
  rw [h.eq]
  exact U32.val_ofNat h.index_lt

/-- An entry at the next position extends the chronicle. -/
theorem Ready.chronicle_concat (hr : Ready es seq index device)
    {e : Entry} (hseq : e.seq = seq) (hop : e.admission.opIndex.val = index)
    (hdev : e.device = device) (hsealed : e.deviceEntry.sealing.payload = []) :
    Chronicle (es ++ [e]) where
  sorted := by
    refine pairwise_append.mpr ⟨hr.chronicle.sorted, pairwise_singleton _ _, ?_⟩
    intro d hd e' he'
    rw [mem_singleton.mp he', AdmissionOrder.lt_iff]
    rcases hr.below d hd with hlt | ⟨heq, hlt, -⟩
    · exact Or.inl (lt_of_lt_of_eq hlt hseq.symm)
    · refine Or.inr ⟨heq.trans hseq.symm, ?_⟩
      exact Fin.lt_def.mpr (hop ▸ hlt)
  seq_ne_zero := by
    intro d hd
    rcases mem_append.mp hd with hd | hd
    · exact hr.chronicle.seq_ne_zero d hd
    · rw [mem_singleton.mp hd, hseq]
      exact hr.seq_ne_zero
  one_author := by
    have hlast : ∀ d ∈ es, d.seq = e.seq → d.device = e.device := by
      intro d hd heq
      rcases hr.below d hd with hlt | ⟨-, -, hd'⟩
      · exact absurd (heq.trans hseq) hlt.ne
      · rw [hd', hdev]
    intro a ha b hb heq
    rcases mem_append.mp ha with ha | ha <;> rcases mem_append.mp hb with hb | hb
    · exact hr.chronicle.one_author a ha b hb heq
    · rw [mem_singleton.mp hb] at heq ⊢
      exact hlast a ha heq
    · rw [mem_singleton.mp ha] at heq ⊢
      exact (hlast b hb heq.symm).symm
    · rw [mem_singleton.mp ha, mem_singleton.mp hb]
  sealed := by
    intro d hd
    rcases mem_append.mp hd with hd | hd
    · exact hr.chronicle.sealed d hd
    · rw [mem_singleton.mp hd]
      exact hsealed

theorem Accepted.chronicle (h : Accepted es device deviceSeq seq index entry e)
    (hr : Ready es seq index device) : Chronicle (es ++ [e]) :=
  hr.chronicle_concat h.entry_seq h.entry_opIndex h.entry_device (by rw [h.eq]; exact h.sealed)

theorem Accepted.ready (h : Accepted es device deviceSeq seq index entry e)
    (hr : Ready es seq index device) : Ready (es ++ [e]) seq (index + 1) device where
  chronicle := h.chronicle hr
  seq_ne_zero := hr.seq_ne_zero
  below := by
    intro d hd
    rcases mem_append.mp hd with hd | hd
    · rcases hr.below d hd with hlt | ⟨heq, hlt, hdev⟩
      · exact Or.inl hlt
      · exact Or.inr ⟨heq, Nat.lt_succ_of_lt hlt, hdev⟩
    · rw [mem_singleton.mp hd]
      exact Or.inr ⟨h.entry_seq, h.entry_opIndex ▸ Nat.lt_succ_self _, h.entry_device⟩
  live := h.count
  versioned := by
    refine pairwise_append.mpr ⟨hr.versioned, pairwise_singleton _ _, ?_⟩
    intro d hd e' he'
    rw [mem_singleton.mp he']
    exact above_of_checkVersion hr.versioned h.version hd

end Accepted

end Homebase.Ledger
