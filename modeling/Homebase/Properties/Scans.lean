import Homebase.Properties.Leases

set_option autoImplicit false

/-!
# Properties: scans and summaries are exact

Three answers that the server computes without looking at everything: the keys under a byte
prefix, from an interval of the store; the leases around a key, from one scan per depth; and the
newest admission by anybody else, from two heads.  Each of them is what looking at everything
would give.
-/

namespace Homebase.Properties

open Foundation Homebase.Core Server Ledger Refine List

/-! ## Scans by prefix -/

/-- `OrderedStore`: what a store must do.  `scan` may panic (`none`) only on an inverted range. -/
structure OrderedStore where
  get : Bytes → Option Bytes
  scan : Bytes → Option Bytes → Option (List (Bytes × Bytes))
  scan_exact : ∀ start stop, (∀ e, stop = some e → start ≤ e) →
    ∃ rows, scan start stop = some rows ∧ rows.Pairwise (fun a b => a.1 < b.1) ∧
      ∀ k v, (k, v) ∈ rows ↔ get k = some v ∧ start ≤ k ∧ ∀ e, stop = some e → k < e

namespace OrderedStore

/-- `OrderedStore::scan_prefix`. -/
def scanPrefix (store : OrderedStore) (p : Bytes) : Option (List (Bytes × Bytes)) :=
  store.scan p (prefixSuccessor p)

/-- `MemoryStore` is an ordered store. -/
def memory (store : Store) : OrderedStore where
  get := store.get
  scan := store.scan
  scan_exact start stop hle := by
    exact ⟨store.range start stop, store.scan_eq_some hle, OrdMap.range_sorted store start stop,
      fun k v => OrdMap.mem_range_iff⟩

end OrderedStore

theorem successorLoop_eq_none_iff (l : Bytes) : successorLoop l = none ↔ ∀ b ∈ l, b = 255 := by
  induction l with
  | nil => simp [successorLoop]
  | cons last rest ih =>
    rw [successorLoop, forall_mem_cons]
    split
    next h =>
      have hne : last ≠ 255 := by
        rintro rfl
        exact absurd h (by decide)
      simp [hne]
    next h =>
      have heq : last = 255 := Fin.ext (le_antisymm (Nat.le_of_lt_succ last.isLt) (not_lt.mp h))
      simp [ih, heq]

/-- A byte string starts with `p` if and only if it is at least `p` and below the successor of
`p`, if there is one; there is none exactly if `p` is empty or all its bytes are `0xff`.  So a
scan by prefix visits exactly the keys that start with it, in order. -/
theorem prefix_scan_exact (p : Bytes) :
    (∀ s, p <+: s ↔ p ≤ s ∧ (prefixSuccessor p = none ∨ ∃ e, prefixSuccessor p = some e ∧ s < e)) ∧
      (prefixSuccessor p = none ↔ p = [] ∨ ∀ b ∈ p, b = 255) ∧
      ∀ store : OrderedStore, ∃ rows, store.scanPrefix p = some rows ∧
        rows.Pairwise (fun a b => a.1 < b.1) ∧
        ∀ k v, (k, v) ∈ rows ↔ store.get k = some v ∧ p <+: k := by
  refine ⟨fun s => ?_, ?_, fun store => ?_⟩
  · rw [isPrefix_iff_between]
    cases prefixSuccessor p <;> simp
  · rw [prefixSuccessor, Option.map_eq_none_iff, successorLoop_eq_none_iff]
    simp only [mem_reverse]
    refine ⟨Or.inr, ?_⟩
    rintro (rfl | h)
    · simp
    · exact h
  · have hrange : ∀ e, prefixSuccessor p = some e → p ≤ e := fun e he =>
      (((isPrefix_iff_between p p).mp (prefix_refl p)).2 e he).le
    obtain ⟨rows, hrows, hsorted, hmem⟩ := store.scan_exact p (prefixSuccessor p) hrange
    refine ⟨rows, hrows, hsorted, fun k v => ?_⟩
    rw [hmem, isPrefix_iff_between]

/-! ## Leases around a key -/

/-- In every store whose two lease indexes agree, the scans at each depth find what a look at all
leases would: `covering` the live leases whose prefix is a component prefix of the key,
`overlapping` those whose prefix is one of the given prefix or extends it, live and dead ones
apart, each of them once. -/
theorem lease_scans_exact (space : SpaceId) (store : Store) (hindexed : Indexed space store)
    (now : Timestamp) (key : Key) :
    (∃ live, covering space store now key = .ok live ∧ live.Nodup ∧
      ∀ record, record ∈ live ↔ Holds space store record ∧ record.isLive now = true ∧
        record.leasePrefix.components <+: key.components) ∧
    ∃ live dead, overlapping space store now key = .ok (live, dead) ∧ (live ++ dead).Nodup ∧
      ∀ record, (record ∈ live ↔ record ∈ live ++ dead ∧ record.isLive now = true) ∧
        (record ∈ live ++ dead ↔ Holds space store record ∧
          (record.leasePrefix.components <+: key.components ∨
            key.components <+: record.leasePrefix.components)) := by
  constructor
  · obtain ⟨live, hlive, hnodup, hmem⟩ := covering_exact hindexed now key
    refine ⟨live, hlive, hnodup, fun record => ?_⟩
    rw [hmem, Key.startsWith_iff]
  · obtain ⟨live, dead, hscan, hnodup, hnodup', hlive, hdead⟩ :=
      overlapping_exact hindexed now key
    have hoverlap : ∀ record : LeaseRecord, prefixesOverlap record.leasePrefix key = true ↔
        record.leasePrefix.components <+: key.components ∨
          key.components <+: record.leasePrefix.components := by
      intro record
      rw [prefixesOverlap, Bool.or_eq_true, Key.startsWith_iff, Key.startsWith_iff, or_comm]
    have hapart : ∀ record ∈ dead, record.isLive now = false := fun record h =>
      ((hdead record).mp h).2.1
    refine ⟨live, dead, hscan, List.nodup_append'.mpr ⟨hnodup, hnodup', fun record h h' => ?_⟩,
      fun record => ⟨?_, ?_⟩⟩
    · simpa [hapart record h'] using ((hlive record).mp h).2.1
    · rw [mem_append]
      constructor
      · exact fun h => ⟨Or.inl h, ((hlive record).mp h).2.1⟩
      · rintro ⟨h | h, hyes⟩
        · exact h
        · rw [hapart record h] at hyes
          cases hyes
    · rw [mem_append, hlive, hdead, ← hoverlap]
      cases record.isLive now <;> simp

/-- A store that a server left behind, with a lease in it. -/
theorem lease_scans_exact_sampleVerbs :
    ∃ live, covering (.zero 16) (run (fun _ => .zero 32) (.zero 16) sampleVerbs).store sampleNow
        sampleKey = .ok live ∧ live.Nodup ∧ sampleLease ∈ live := by
  obtain ⟨L, hD, hV, -⟩ := run_refines (fun _ => .zero 32) (.zero 16) sampleVerbs
  obtain ⟨live, hlive, hnodup, hmem⟩ := (lease_scans_exact (.zero 16) _ (hD.indexed hV.keyed)
    sampleNow sampleKey).1
  refine ⟨live, hlive, hnodup, (hmem sampleLease).mpr ⟨?_, by decide +kernel, prefix_refl _⟩⟩
  have hlease := leaseById_spec hD hV.keyed 0
  rw [leaseById_sampleVerbs] at hlease
  exact (holds_iff hD hV.keyed _).mpr ⟨0, (Except.ok.inj hlease).symm⟩

/-! ## Two heads -/

/-- How a summary comes about: observations are taken in one by one, and summaries of different
observations are merged. -/
inductive Schedule where
  | empty
  | observe (earlier : Schedule) (observation : DeviceAdmission)
  | merge (first second : Schedule)
  deriving DecidableEq

namespace Schedule

/-- The summary of a schedule. -/
def heads : Schedule → HistoricalHeads
  | empty => HistoricalHeads.empty
  | observe earlier observation =>
      earlier.heads.observe observation.device observation.admissionSeq
  | merge first second => first.heads.merge second.heads

/-- The observations of a schedule. -/
def observations : Schedule → List DeviceAdmission
  | empty => []
  | observe earlier observation => earlier.observations ++ [observation]
  | merge first second => first.observations ++ second.observations

/-- The newest admission by a device other than `excluded`, zero if there is none. -/
def newest (excluded : DeviceId) (observations : List DeviceAdmission) : AdmissionSeq :=
  top DeviceAdmission.admissionSeq (fun o => decide (o.device ≠ excluded)) observations

theorem valid_heads (schedule : Schedule) : schedule.heads.valid = true := by
  induction schedule with
  | empty => exact HistoricalHeads.valid_empty
  | observe earlier observation ih => exact HistoricalHeads.valid_observe ih _ _
  | merge first second ih _ => exact HistoricalHeads.valid_merge ih _

/-- Observing and merging both take the greater of two answers, as putting lists together does. -/
theorem maxExcluding_heads (schedule : Schedule) (excluded : DeviceId) :
    schedule.heads.maxExcluding excluded = newest excluded schedule.observations := by
  induction schedule with
  | empty => exact HistoricalHeads.maxExcluding_empty excluded
  | observe earlier observation ih =>
    rw [heads, observations, HistoricalHeads.maxExcluding_observe (valid_heads earlier), newest,
      top_concat, ih, newest]
    by_cases h : observation.device = excluded <;> simp [h]
  | merge first second ih ih' =>
    rw [heads, observations,
      HistoricalHeads.maxExcluding_merge (valid_heads first) (valid_heads second), newest,
      top_append, ih, ih', newest, newest]

/-- However a sequence of observations is split, observed in parts and merged, the summary answers
with the greatest admission of another device, for every device; and it is always accepted by its
decoder. -/
theorem heads_join (sequence : List DeviceAdmission) (schedule : Schedule)
    (hsplit : schedule.observations.Perm sequence) :
    (∀ excluded, schedule.heads.maxExcluding excluded = newest excluded sequence) ∧
      ∀ rest, HistoricalHeads.decodeFrom (schedule.heads.encode ++ rest) =
        some (schedule.heads, rest) := by
  refine ⟨fun excluded => ?_, HistoricalHeads.decodeFrom_encode (valid_heads schedule)⟩
  rw [maxExcluding_heads]
  refine eq_of_forall_ge_iff fun bound => ?_
  simp only [newest, top_le_iff, hsplit.mem_iff]

/-- Three devices, of which the one in the middle is evicted before the merge. -/
def evicting : Schedule :=
  .merge (.observe (.observe (.observe .empty ⟨.zero 16, 3⟩) ⟨sampleHolder, 5⟩) ⟨sampleWriter, 7⟩)
    (.observe .empty ⟨.zero 16, 6⟩)

theorem heads_join_evicting :
    evicting.heads.maxExcluding sampleWriter = 6 ∧
      newest sampleWriter [⟨.zero 16, 6⟩, ⟨sampleWriter, 7⟩, ⟨.zero 16, 3⟩, ⟨sampleHolder, 5⟩] =
        6 := by
  have hsplit : evicting.observations.Perm
      [⟨.zero 16, 6⟩, ⟨sampleWriter, 7⟩, ⟨.zero 16, 3⟩, ⟨sampleHolder, 5⟩] := by
    decide +kernel
  have hanswer := (heads_join _ evicting hsplit).1 sampleWriter
  have hsix : evicting.heads.maxExcluding sampleWriter = 6 := by decide +kernel
  exact ⟨hsix, hanswer ▸ hsix⟩

end Schedule

end Homebase.Properties
