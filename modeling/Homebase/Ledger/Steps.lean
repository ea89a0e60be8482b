import Homebase.Ledger.State

set_option autoImplicit false

/-!
# Ledger: the steps of a space

`Step` lists everything a verb can do to a space, once.  Invariants of all runs
are proved against it: a space stays well formed (`Step.valid`), a lease id names one
lease (`Step.keeps`), and a live lease keeps foreign writes out of its prefix from its
barrier on (`Step.fenced`).
-/

namespace Homebase.Ledger

open Foundation Homebase.Core Server List

/-! ## Tables derived from tables -/

/-- Every lease of the second table comes from the first: unchanged, or extended
while it was live. -/
def Derived (now : Timestamp) (leases leases' : Leases) : Prop :=
  ∀ id record', leases' id = some record' → ∃ record, leases id = some record ∧
    (record' = record ∨ record.isLive now = true) ∧ record'.id = record.id ∧
    record'.leasePrefix = record.leasePrefix ∧ record'.mode = record.mode ∧
    record'.device = record.device ∧ record'.barrier = record.barrier ∧
    (record.normalize = record → record'.normalize = record')

variable {now : Timestamp} {leases leases' : Leases}

theorem Derived.of_sub (h : ∀ id record, leases' id = some record → leases id = some record) :
    Derived now leases leases' := fun id record hid =>
  ⟨record, h id record hid, Or.inl rfl, rfl, rfl, rfl, rfl, rfl, fun hn => hn⟩

theorem derived_purged (leases : Leases) (now : Timestamp) (specs : List LeaseSpec) :
    Derived now leases (purged leases now specs) :=
  Derived.of_sub fun _ _ h => (Option.filter_eq_some_iff.mp h).1

theorem derived_swept (leases : Leases) (now : Timestamp) :
    Derived now leases (swept leases now) :=
  Derived.of_sub fun _ _ h => (Option.filter_eq_some_iff.mp h).1

theorem derived_released (leases : Leases) (now : Timestamp) (device : DeviceId)
    (ids : List LeaseId) : Derived now leases (released leases now device ids) := by
  refine Derived.of_sub fun id record h => ?_
  rw [released] at h
  split at h
  · exact (Option.filter_eq_some_iff.mp h).1
  · exact h

theorem derived_renewed (leases : Leases) (now : Timestamp) (req : RenewRequest)
    (ids : List LeaseId) : Derived now leases (renewed leases now req ids) := by
  intro id record' h
  rw [renewed] at h
  split at h
  · obtain ⟨record, hid, h⟩ := Option.bind_eq_some_iff.mp h
    rw [renewalOf] at h
    split at h
    next hlive =>
      split at h
      · cases h
        refine ⟨record, hid, Or.inr hlive, rfl, rfl, rfl, rfl, rfl, fun hn => ?_⟩
        exact renewedRecord_normalize hn
      · cases h
        exact ⟨record', hid, Or.inl rfl, rfl, rfl, rfl, rfl, rfl, fun hn => hn⟩
    next => cases h
  · exact ⟨record', h, Or.inl rfl, rfl, rfl, rfl, rfl, rfl, fun hn => hn⟩

theorem Derived.keyed (h : Derived now leases leases') (hK : Keyed leases) : Keyed leases' := by
  intro id record' hid
  obtain ⟨record, hrecord, -, hrid, -, -, -, -, hnorm⟩ := h id record' hid
  obtain ⟨hk, hn⟩ := hK id record hrecord
  exact ⟨hrid.trans hk, hnorm hn⟩

theorem Derived.exclusive (h : Derived now leases leases') (hE : Exclusive leases) :
    Exclusive leases' := by
  intro a b ra rb ha hb hne hoverlap
  obtain ⟨sa, hsa, -, -, hpa, hma, -⟩ := h a ra ha
  obtain ⟨sb, hsb, -, -, hpb, hmb, -⟩ := h b rb hb
  rw [hma, hmb]
  rw [hpa, hpb] at hoverlap
  exact hE a b sa sb hsa hsb hne hoverlap

/-- The grant of a lease, as a renewal leaves it. -/
def grantOf (lease : Option LeaseRecord) : Option (Key × LeaseMode × DeviceId × AdmissionSeq) :=
  lease.map fun record => (record.leasePrefix, record.mode, record.device, record.barrier)

/-- An id names in the second table what it names in the first, or nothing. -/
def Keeps (leases leases' : Leases) (id : LeaseId) : Prop :=
  grantOf (leases' id) = none ∨ grantOf (leases' id) = grantOf (leases id)

theorem Derived.keeps (h : Derived now leases leases') (id : LeaseId) : Keeps leases leases' id := by
  cases hid : leases' id with
  | none => exact Or.inl (by rw [hid]; rfl)
  | some record' =>
    obtain ⟨record, hrecord, -, -, hprefix, hmode, hdevice, hbarrier, -⟩ := h id record' hid
    exact Or.inr (by simp [grantOf, hid, hrecord, hprefix, hmode, hdevice, hbarrier])

/-! ## Granted leases -/

theorem prefixesOverlap_comm (a b : Key) : prefixesOverlap a b = prefixesOverlap b a := by
  rw [prefixesOverlap, prefixesOverlap, Bool.or_comm]

variable {specs : List LeaseSpec} {spec : LeaseSpec} {id : LeaseId} {record : LeaseRecord}

/-- After the purge, whatever overlaps a spec was live, and so agrees with it. -/
theorem compatible_of_purged {leases : Leases} (hG : Grantable leases now specs)
    (hspec : spec ∈ specs) (hid : purged leases now specs id = some record)
    (hoverlap : prefixesOverlap record.leasePrefix spec.leasePrefix = true) :
    spec.mode.compatibleWith record.mode = true := by
  obtain ⟨hstored, hkeep⟩ := Option.filter_eq_some_iff.mp hid
  have hlive : record.isLive now = true := by
    rcases (Bool.or_eq_true _ _).mp hkeep with h | h
    · exact h
    · have hany : (specs.any fun spec =>
          prefixesOverlap record.leasePrefix spec.leasePrefix) = true :=
        any_eq_true.mpr ⟨spec, hspec, hoverlap⟩
      rw [hany] at h
      cases h
  exact hG.unopposed spec hspec id record hstored hlive hoverlap

/-- What the table after the grants satisfies, given what it satisfied before. -/
structure GrantReady (leases : Leases) (specs : List LeaseSpec) (next : LeaseId) : Prop where
  keyed : Keyed leases
  below : ∀ id record, leases id = some record → id < next
  exclusive : Exclusive leases
  compatible : ∀ spec ∈ specs, ∀ id record, leases id = some record →
    prefixesOverlap record.leasePrefix spec.leasePrefix = true →
      spec.mode.compatibleWith record.mode = true
  request : specs.Pairwise fun a b => specsConflict a b = false

variable {next : LeaseId}

/-- One grant. -/
theorem GrantReady.step {leases : Leases} {rest : List LeaseSpec}
    (h : GrantReady leases (spec :: rest) next) (hroom : next.val + 1 < 2 ^ 64) (now : Timestamp)
    (req : AcquireRequest) (barrier : AdmissionSeq) :
    GrantReady (Function.update leases next
      (some (grantedRecord now req barrier next spec).normalize)) rest
      (U64.ofNat (next.val + 1)) := by
  obtain ⟨hpair, hrest⟩ := pairwise_cons.mp h.request
  have hcases : ∀ id record, Function.update leases next
      (some (grantedRecord now req barrier next spec).normalize) id = some record →
        (id = next ∧ record = (grantedRecord now req barrier next spec).normalize) ∨
        (id ≠ next ∧ leases id = some record) := by
    intro id record hid
    by_cases heq : id = next
    · rw [heq, Function.update_self] at hid
      exact Or.inl ⟨heq, (Option.some.inj hid).symm⟩
    · rw [Function.update_of_ne heq] at hid
      exact Or.inr ⟨heq, hid⟩
  refine ⟨fun id record hid => ?_, fun id record hid => ?_, ?_, ?_, hrest⟩
  · rcases hcases id record hid with ⟨rfl, rfl⟩ | ⟨-, hold⟩
    · exact ⟨rfl, LeaseRecord.normalize_normalize _⟩
    · exact h.keyed id record hold
  · rw [Fin.lt_def, U64.val_ofNat hroom]
    rcases hcases id record hid with ⟨rfl, -⟩ | ⟨-, hold⟩
    · exact Nat.lt_succ_self _
    · exact Nat.lt_succ_of_lt (Fin.lt_def.mp (h.below id record hold))
  · intro a b ra rb ha hb hne hoverlap
    rcases hcases a ra ha with ⟨rfl, rfl⟩ | ⟨-, hra⟩ <;>
      rcases hcases b rb hb with ⟨rfl, rfl⟩ | ⟨-, hrb⟩
    · exact absurd rfl hne
    · rw [prefixesOverlap_comm] at hoverlap
      exact h.compatible spec mem_cons_self b rb hrb hoverlap
    · rw [LeaseMode.compatibleWith_comm]
      exact h.compatible spec mem_cons_self a ra hra hoverlap
    · exact h.exclusive a b ra rb hra hrb hne hoverlap
  · intro other hother id record hid hoverlap
    rcases hcases id record hid with ⟨rfl, rfl⟩ | ⟨-, hold⟩
    · have hnot := hpair other hother
      rw [LeaseMode.compatibleWith_comm]
      by_contra hincompatible
      rw [Bool.not_eq_true] at hincompatible
      have hconflict : specsConflict spec other = true := by
        rw [specsConflict, Bool.and_eq_true, Bool.not_eq_true']
        exact ⟨hoverlap, hincompatible⟩
      rw [hnot] at hconflict
      cases hconflict
    · exact h.compatible other (mem_cons_of_mem _ hother) id record hold hoverlap

/-- All grants of a request. -/
theorem GrantReady.granted {leases : Leases} (h : GrantReady leases specs next)
    (hroom : next.val + specs.length < 2 ^ 64) (now : Timestamp) (req : AcquireRequest)
    (barrier : AdmissionSeq) :
    GrantReady (granted now req barrier specs next leases) []
      (U64.ofNat (next.val + specs.length)) := by
  induction specs generalizing leases next with
  | nil => simpa [Ledger.granted, U64.ofNat_val] using h
  | cons spec rest ih =>
    rw [length_cons] at hroom ⊢
    have hval : (U64.ofNat (next.val + 1)).val = next.val + 1 := U64.val_ofNat (by omega)
    have hrest := ih (h.step (by omega) now req barrier) (by rw [hval]; omega)
    rw [hval, Nat.add_assoc, Nat.add_comm 1] at hrest
    exact hrest

variable {req : AcquireRequest} {barrier : AdmissionSeq}

/-- A lease after the grants was there before, or carries the barrier of the request. -/
theorem mem_granted {leases : Leases}
    (h : granted now req barrier specs next leases id = some record) :
    leases id = some record ∨ record.barrier = barrier := by
  induction specs generalizing leases next with
  | nil => exact Or.inl h
  | cons spec rest ih =>
    rcases ih h with hold | hnew
    · by_cases heq : id = next
      · rw [heq, Function.update_self] at hold
        exact Or.inr (by rw [← Option.some.inj hold]; rfl)
      · rw [Function.update_of_ne heq] at hold
        exact Or.inl hold
    · exact Or.inr hnew

/-- Grants leave the ids below theirs alone. -/
theorem granted_of_lt {leases : Leases} (hid : id.val < next.val)
    (hroom : next.val + specs.length < 2 ^ 64) :
    granted now req barrier specs next leases id = leases id := by
  induction specs generalizing leases next with
  | nil => rfl
  | cons spec rest ih =>
    rw [length_cons] at hroom
    have hval : (U64.ofNat (next.val + 1)).val = next.val + 1 := U64.val_ofNat (by omega)
    rw [granted, ih (by omega) (by omega), Function.update_of_ne (by rintro rfl; omega)]

/-! ## Steps -/

/-- What a verb can do to a space. -/
inductive Step (sha256 : Bytes → ByteArr 32) (space : SpaceId) : Verb → Space → Space → Prop
  /-- A read, a rejected request, a panic. -/
  | idle (verb : Verb) (L : Space) : Step sha256 space verb L L
  | admitRequest {L L' : Space} {now : Timestamp} {req : AdmissionRequest}
      {response : AdmissionResponse} (h : specAdmit sha256 space L now req = .ok (response, L')) :
      Step sha256 space (.admitRequest now req) L L'
  | contend {L : Space} {now : Timestamp} {req : AcquireRequest} (looked : List LeaseSpec) :
      Step sha256 space (.acquire now req) L { L with leases := purged L.leases now looked }
  | acquire {L : Space} {now : Timestamp} {req : AcquireRequest}
      (hG : Grantable L.leases now req.specs)
      (hroom : L.record.nextLeaseId.val + req.specs.length < 2 ^ 64) :
      Step sha256 space (.acquire now req) L (L.acquired now req)
  | renew (L : Space) (now : Timestamp) (req : RenewRequest) :
      Step sha256 space (.renew now req) L
        { L with leases := renewed L.leases now req req.leases }
  | release (L : Space) (now : Timestamp) (req : ReleaseRequest) :
      Step sha256 space (.release now req) L
        { L with leases := released L.leases now req.device req.leases }
  | listLeases (L : Space) (now : Timestamp) (req : ListLeasesRequest) :
      Step sha256 space (.listLeases now req) L { L with leases := swept L.leases now }

section Steps

variable {sha256 : Bytes → ByteArr 32} {space : SpaceId} {L L' : Space} {now : Timestamp}
  {leases : Leases}

/-- A table derived from the table of a well-formed space. -/
theorem Space.Valid.derive (hV : L.Valid sha256 space) (hd : Derived now L.leases leases) :
    Space.Valid sha256 space { L with leases := leases } where
  logged := hV.logged
  highWater := hV.highWater
  checksum := hV.checksum
  lastSeq := hV.lastSeq
  deviceSeqs := hV.deviceSeqs
  keyed := hd.keyed hV.keyed
  below := by
    intro id record' hid
    obtain ⟨record, hrecord, -⟩ := hd id record' hid
    exact hV.below id record hrecord
  exclusive := hd.exclusive hV.exclusive

theorem Space.Valid.grantReady (hV : L.Valid sha256 space) {specs : List LeaseSpec}
    (hG : Grantable L.leases now specs) :
    GrantReady (purged L.leases now specs) specs L.record.nextLeaseId where
  keyed := (derived_purged L.leases now specs).keyed hV.keyed
  below id record hid := hV.below id record (Option.filter_eq_some_iff.mp hid).1
  exclusive := (derived_purged L.leases now specs).exclusive hV.exclusive
  compatible _ hspec _ _ hid := compatible_of_purged hG hspec hid
  request := hG.request

theorem Space.Valid.acquired (hV : L.Valid sha256 space) {req : AcquireRequest}
    (hG : Grantable L.leases now req.specs)
    (hroom : L.record.nextLeaseId.val + req.specs.length < 2 ^ 64) :
    (L.acquired now req).Valid sha256 space := by
  have hgrant := (hV.grantReady hG).granted hroom now req L.record.admissionHighWater
  exact ⟨hV.logged, hV.highWater, hV.checksum, hV.lastSeq, hV.deviceSeqs, hgrant.keyed,
    hgrant.below, hgrant.exclusive⟩

variable {verb : Verb}

/-- Every step keeps a space well formed. -/
theorem Step.valid (h : Step sha256 space verb L L') (hV : L.Valid sha256 space) :
    L'.Valid sha256 space := by
  cases h with
  | idle => exact hV
  | admitRequest h =>
    obtain ⟨-, last, added, hlast, -, hadded, -, rfl⟩ := specAdmit_eq_ok_iff.mp h
    exact hV.append hlast (specBatches_appends hV.logged hadded)
  | contend looked => exact hV.derive (derived_purged _ _ looked)
  | acquire hG hroom => exact hV.acquired hG hroom
  | renew now req => exact hV.derive (derived_renewed _ _ _ _)
  | release now req => exact hV.derive (derived_released _ _ _ _)
  | listLeases now req => exact hV.derive (derived_swept _ _)

variable {id : LeaseId}

/-- Every step keeps the ids that were given out. -/
theorem Step.keeps (h : Step sha256 space verb L L') (hid : id < L.record.nextLeaseId) :
    id < L'.record.nextLeaseId ∧ Keeps L.leases L'.leases id := by
  cases h with
  | idle => exact ⟨hid, Or.inr rfl⟩
  | admitRequest h =>
    obtain ⟨-, last, added, -, -, -, -, rfl⟩ := specAdmit_eq_ok_iff.mp h
    exact ⟨hid, Or.inr rfl⟩
  | contend looked => exact ⟨hid, (derived_purged _ _ looked).keeps id⟩
  | acquire hG hroom =>
    refine ⟨(Nat.lt_add_right _ hid).trans_eq (U64.val_ofNat hroom).symm, ?_⟩
    simp only [Keeps, Space.acquired, granted_of_lt hid hroom]
    exact (derived_purged _ _ _).keeps id
  | renew now req => exact ⟨hid, (derived_renewed _ _ _ _).keeps id⟩
  | release now req => exact ⟨hid, (derived_released _ _ _ _).keeps id⟩
  | listLeases now req => exact ⟨hid, (derived_swept _ _).keeps id⟩

/-! ## The fence of a lease -/

variable {record : LeaseRecord} {later : Timestamp}

theorem isLive_of_le {now : Timestamp} (hle : now ≤ later) (h : record.isLive later = true) :
    record.isLive now = true :=
  decide_eq_true (lt_of_le_of_lt hle (of_decide_eq_true h))

variable {req : AdmissionRequest}

/-- A request that passes the reservation check touches no foreign live lease. -/
theorem irrelevant_of_specWrites (h : specWrites leases now req = .ok ()) {batch : AdmissionBatch}
    (hbatch : batch ∈ req.batches) {entry : SealedEntry} (hentry : entry ∈ batch.entries)
    (hid : leases id = some record) (hlive : record.isLive now = true)
    (hne : record.device ≠ req.device) :
    mutationRelevant (.prefixed record.leasePrefix) entry.mutation = false := by
  obtain ⟨_, hkeys, hranges⟩ := of_bind h
  have hmem : entry ∈ req.batches.flatMap AdmissionBatch.entries :=
    mem_flatMap.mpr ⟨batch, hbatch, hentry⟩
  have hpoint : ∀ key, entry.mutation.pointKey = some key →
      (Range.prefixed record.leasePrefix).coversKey key = false := by
    intro key hkey
    have hok := forM_eq_ok_iff.mp hkeys key (mem_filterMap.mpr ⟨entry, hmem, hkey⟩)
    by_contra hcov
    rw [Bool.not_eq_false] at hcov
    rw [specKey, if_pos ⟨id, record, hid, hlive, hne, hcov⟩] at hok
    cases hok
  cases hm : entry.mutation with
  | set key value => exact hpoint key (by rw [hm]; rfl)
  | delete key => exact hpoint key (by rw [hm]; rfl)
  | deleteRange range =>
    have hok := forM_eq_ok_iff.mp hranges range
      (mem_filterMap.mpr ⟨entry, hmem, by rw [hm]; rfl⟩)
    by_contra hcov
    rw [Bool.not_eq_false] at hcov
    rw [specRange, if_pos ⟨id, record, hid, hlive, hne, hcov⟩] at hok
    cases hok

/-- Past the barrier of a live lease, nobody else touched its prefix. -/
def Fenced (now : Timestamp) (L : Space) : Prop :=
  ∀ id record, L.leases id = some record → record.isLive now = true →
    ∀ a ∈ L.log, a.device ≠ record.device → record.barrier < a.seq →
      ∀ entry ∈ a.batch.entries,
        mutationRelevant (.prefixed record.leasePrefix) entry.mutation = false

theorem Fenced.derive {now : Timestamp} (hF : Fenced now L) (hle : now ≤ later)
    (hd : Derived later L.leases leases) : Fenced later { L with leases := leases } := by
  intro id record' hid hlive a ha hne hseq
  obtain ⟨record, hrecord, hsource, -, hsame, -, hdevice, hbarrier, -⟩ := hd id record' hid
  -- a lease live now was live at the step before, extended or not
  have hlive' : record.isLive now = true := by
    rcases hsource with rfl | h
    · exact isLive_of_le hle hlive
    · exact isLive_of_le hle h
  rw [hsame]
  exact hF id record hrecord hlive' a ha (hdevice ▸ hne) (hbarrier ▸ hseq)

/-- Every step keeps the fences up, as long as time does not run backwards. -/
theorem Step.fenced (h : Step sha256 space verb L L') (hV : L.Valid sha256 space)
    (hF : Fenced now L) (hclock : ∀ t, verb.now? = some t → now ≤ t) :
    Fenced (verb.now?.getD now) L' := by
  have hself : ∀ later, Derived later L.leases L.leases := fun later =>
    Derived.of_sub fun _ _ h => h
  cases h with
  | idle =>
    cases ht : verb.now? with
    | none => exact hF
    | some t => exact hF.derive (hclock t ht) (hself t)
  | @admitRequest _ _ t req response h =>
    have hle : now ≤ t := hclock t rfl
    obtain ⟨-, last, added, -, hwrites, hadded, -, rfl⟩ := specAdmit_eq_ok_iff.mp h
    have happend := specBatches_appends hV.logged hadded
    intro id record hid hlive a ha hne hseq entry hentry
    rcases mem_append.mp ha with ha | ha
    · exact hF id record hid (isLive_of_le hle hlive) a ha hne hseq entry hentry
    · have hdev := happend.own a ha
      have hbatch : a.batch ∈ req.batches := happend.batches ▸ mem_map_of_mem ha
      exact irrelevant_of_specWrites hwrites hbatch hentry hid hlive (hdev ▸ hne.symm)
  | contend looked => exact hF.derive (hclock _ rfl) (derived_purged _ _ looked)
  | @acquire _ t req hG hroom =>
    have hpurged := hF.derive (hclock t rfl) (derived_purged L.leases t req.specs)
    intro id record hid hlive a ha hne hseq
    rcases mem_granted hid with hold | hbarrier
    · exact hpurged id record hold hlive a ha hne hseq
    · -- a fresh lease starts at the end of the log
      have hle := hV.logged.seq_le ha
      rw [hbarrier, hV.highWater, Fin.lt_def, U64.val_ofNat (by have := hV.logged.short; omega)]
        at hseq
      omega
  | renew t req => exact hF.derive (hclock _ rfl) (derived_renewed _ _ _ _)
  | release t req => exact hF.derive (hclock _ rfl) (derived_released _ _ _ _)
  | listLeases t req => exact hF.derive (hclock _ rfl) (derived_swept _ _)

end Steps

end Homebase.Ledger
