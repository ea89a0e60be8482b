import Homebase.Multilite.Proposal
import Homebase.Refine.Run

set_option autoImplicit false

/-!
# Refinement: range assertions from a footprint to the log

A footprint asserts a set of keys.  `plan` keeps an antichain of them, the client encodes
their names, and the server compares each with the admissions of other devices.  On every
step of that way an asserted key stays under something that is still asserted, so a batch
in the log has met the assertions of all of them (`run_asserted`).
-/

namespace Homebase.Refine

open Foundation Homebase.Core Server Ledger List

/-! ## Names -/

section Names

open Client

theorem length_escape_le (bytes : Bytes) : (bytes.flatMap escape).length ≤ 2 * bytes.length := by
  induction bytes with
  | nil => simp
  | cons b rest ih =>
    rw [flatMap_cons, length_append, length_cons]
    by_cases hb : b = 0 <;> simp only [escape, hb, if_true, if_false, length_cons,
      length_nil] <;> omega

/-- Components of bounded length make a flat form of bounded length. -/
theorem length_encodeComponents_le (bound : Nat) {components : List KeyComponent}
    (h : ∀ c ∈ components, c.bytes.length ≤ bound) :
    (encodeComponents components).length ≤ components.length * (2 * bound + 2) := by
  induction components with
  | nil => simp
  | cons c rest ih =>
    have hrest := ih fun d hd => h d (mem_cons_of_mem _ hd)
    have hc := h c mem_cons_self
    have hescape := length_escape_le c.bytes
    rw [encodeComponents_cons, length_append, encodeComponent, length_append]
    simp only [length_cons, length_nil, Nat.add_mul]
    omega

variable (crypto : Crypto)

/-- A pseudonym is a component. -/
theorem new_pseudonym (pathKey : ByteArr 32) (component : Bytes) :
    ∃ c, KeyComponent.new (componentPseudonym crypto pathKey component).bytes = .ok c ∧
      c.bytes.length = 32 := by
  have hlength := (componentPseudonym crypto pathKey component).length_eq
  have hne : (componentPseudonym crypto pathKey component).bytes ≠ [] := by
    intro hnil
    rw [hnil] at hlength
    cases hlength
  have hle : ¬ maxComponentLen < (componentPseudonym crypto pathKey component).bytes.length := by
    rw [hlength]
    decide
  rw [KeyComponent.new, dif_neg hne, dif_neg hle]
  exact ⟨_, rfl, hlength⟩

/-- Encoding a longer name continues the encoding of a shorter one. -/
theorem encodeNameComponents_append (pathKey : ByteArr 32) (xs ys : List KeyComponent) :
    ∃ xs' ys', encodeNameComponents crypto pathKey xs = .ok xs' ∧
      encodeNameComponents crypto pathKey (xs ++ ys) = .ok (xs' ++ ys') ∧
      xs'.length = xs.length ∧ ys'.length = ys.length ∧
      ∀ c ∈ xs' ++ ys', c.bytes.length = 32 := by
  induction xs generalizing pathKey with
  | nil =>
    induction ys generalizing pathKey with
    | nil => exact ⟨[], [], rfl, rfl, rfl, rfl, by simp⟩
    | cons y ys ih =>
      obtain ⟨c, hc, hlength⟩ := new_pseudonym crypto pathKey y.bytes
      obtain ⟨_, ys', hnil, hys, hlen, hlen', hall⟩ := ih (childNameKey crypto pathKey y.bytes)
      cases hnil
      refine ⟨[], c :: ys', rfl, ?_, rfl, by simp [hlen'], ?_⟩
      · rw [nil_append] at hys
        simp only [nil_append, encodeNameComponents, hc, orInvalidKey, ok_bind, hys]
      · exact forall_mem_cons.mpr ⟨hlength, hall⟩
  | cons x xs ih =>
    obtain ⟨c, hc, hlength⟩ := new_pseudonym crypto pathKey x.bytes
    obtain ⟨xs', ys', hxs, hall, hlen, hlen', hbytes⟩ := ih (childNameKey crypto pathKey x.bytes)
    refine ⟨c :: xs', ys', ?_, ?_, by simp [hlen], hlen', ?_⟩
    · simp only [encodeNameComponents, hc, orInvalidKey, ok_bind, hxs]
    · simp only [cons_append, encodeNameComponents, hc, orInvalidKey, ok_bind, hall]
    · exact forall_mem_cons.mpr ⟨hlength, hbytes⟩

/-- Pseudonyms in the number of a key's components make a key. -/
theorem new_of_pseudonyms (key : Key) {components : List KeyComponent}
    (hcount : components.length = key.components.length)
    (hbytes : ∀ c ∈ components, c.bytes.length = 32) :
    ∃ encoded, Key.new components = .ok encoded ∧ encoded.components = components := by
  have hne : components ≠ [] := by
    rintro rfl
    exact key.ne_nil (length_eq_zero_iff.mp hcount.symm)
  have hle : ¬ maxComponents < components.length := by
    rw [hcount]
    exact not_lt.mpr key.count_le
  have hencoded : ¬ maxEncodedKeyLen < encodedComponentsLen components := by
    have hlength := length_encodeComponents_le 32 fun c hc => (hbytes c hc).le
    have hcomponents := key.count_le
    rw [encodedComponentsLen_eq, hcount] at *
    simp only [maxComponents, maxEncodedKeyLen] at *
    omega
  rw [Key.new, dif_neg hne, dif_neg hle, dif_neg hencoded]
  exact ⟨_, rfl, rfl⟩

/-- Every key has a name at the server, under those of its ancestors. -/
theorem encodeKey_startsWith (mode : CipherMode) {key ancestor : Key}
    (h : key.startsWith ancestor = true) :
    ∃ encoded encodedAncestor, mode.encodeKey crypto key = .ok encoded ∧
      mode.encodeKey crypto ancestor = .ok encodedAncestor ∧
      encoded.startsWith encodedAncestor = true := by
  cases mode with
  | plaintext => exact ⟨key, ancestor, rfl, rfl, h⟩
  | encrypted nameKey spaceKeys =>
    obtain ⟨rest, hrest⟩ := Key.startsWith_iff.mp h
    obtain ⟨xs, ys, hxs, hall, hlen, hlen', hbytes⟩ :=
      encodeNameComponents_append crypto nameKey ancestor.components rest
    rw [hrest] at hall
    obtain ⟨encodedAncestor, hancestor, hcomponents⟩ := new_of_pseudonyms ancestor hlen
      fun c hc => hbytes c (mem_append_left _ hc)
    obtain ⟨encoded, hkey, hcomponents'⟩ := new_of_pseudonyms key
      (by rw [← hrest, length_append, length_append, hlen, hlen']) hbytes
    refine ⟨encoded, encodedAncestor, ?_, ?_, ?_⟩
    · simp only [CipherMode.encodeKey, encodeNameKey, hall, ok_bind, hkey, orInvalidKey]
    · simp only [CipherMode.encodeKey, encodeNameKey, hxs, ok_bind, hancestor, orInvalidKey]
    · rw [Key.startsWith_iff, hcomponents, hcomponents']
      exact prefix_append _ _

end Names

/-! ## Antichains -/

section Antichains

open Multilite

/-- The key or one of its ancestors is in the set. -/
def Covered (keys : PrefixAntichain) (key : Key) : Prop :=
  ∃ ancestor ∈ OrdSet.toList keys, key.startsWith ancestor = true

theorem covered_of_mem {keys : PrefixAntichain} {key : Key} (h : key ∈ OrdSet.toList keys) :
    Covered keys key :=
  ⟨key, h, Key.startsWith_self key⟩

theorem get_foldl_erase (keys : PrefixAntichain) (removed : List Key) (key : Key) :
    (removed.foldl OrdMap.erase keys).get key = if key ∈ removed then none else keys.get key := by
  induction removed generalizing keys with
  | nil => rfl
  | cons first rest ih =>
    rw [foldl_cons, ih, OrdMap.get_erase]
    by_cases hrest : key ∈ rest <;> by_cases hfirst : key = first <;> simp [hrest, hfirst]

/-- An insertion covers what it inserts and what was covered. -/
theorem covered_insertKey {keys : PrefixAntichain} {inserted key : Key}
    (h : key = inserted ∨ Covered keys key) : Covered (keys.insertKey inserted) key := by
  rw [PrefixAntichain.insertKey]
  split
  next hcovering =>
    -- An ancestor is there already.
    rcases h with rfl | h
    · obtain ⟨ancestor, hlast, hstarts⟩ := Option.any_eq_true _ _ |>.mp hcovering
      refine ⟨ancestor, ?_, hstarts⟩
      exact mem_of_mem_filter (mem_of_getLast? hlast)
    · exact h
  next =>
    rcases h with rfl | ⟨ancestor, hmem, hstarts⟩
    · exact covered_of_mem (OrdSet.mem_toList_iff.mpr (OrdMap.get_insert_self _ _ _))
    · by_cases hunder : ancestor.startsWith inserted = true
      · exact ⟨inserted, OrdSet.mem_toList_iff.mpr (OrdMap.get_insert_self _ _ _),
          Key.startsWith_trans hstarts hunder⟩
      -- Only descendants of the new key are removed.
      · refine ⟨ancestor, OrdSet.mem_toList_iff.mpr ?_, hstarts⟩
        have hne : ancestor ≠ inserted := by
          rintro rfl
          exact hunder (Key.startsWith_self _)
        rw [OrdMap.get_insert_of_ne _ _ hne, get_foldl_erase, if_neg]
        · exact OrdSet.mem_toList_iff.mp hmem
        · intro hremoved
          have hstarts := mem_takeWhile_imp
            (p := fun candidate : Key => candidate.startsWith inserted) hremoved
          exact hunder hstarts

theorem covered_extendKeys {keys other : PrefixAntichain} {key : Key}
    (h : Covered keys key ∨ key ∈ OrdSet.toList other) : Covered (keys.extendKeys other) key := by
  rw [PrefixAntichain.extendKeys]
  generalize OrdSet.toList other = inserted at h
  induction inserted generalizing keys with
  | nil => exact h.resolve_right not_mem_nil
  | cons first rest ih =>
    rw [foldl_cons]
    refine ih ?_
    rcases h with h | h
    · exact .inl (covered_insertKey (.inr h))
    · rcases mem_cons.mp h with rfl | h
      · exact .inl (covered_insertKey (.inl rfl))
      · exact .inr h

/-- Every asserted key is covered by the merged antichain. -/
theorem covered_selected {footprint : ConflictFootprint} {isolation : IsolationLevel} {key : Key}
    (h : key ∈ footprint.assertedKeys isolation) : Covered (footprint.selected isolation) key := by
  unfold ConflictFootprint.assertedKeys at h
  rw [mem_append, mem_append] at h
  have hmerged : key ∈ OrdSet.toList footprint.writes ∨ key ∈ OrdSet.toList footprint.constraints →
      Covered (footprint.writes.extendKeys footprint.constraints) key := fun h =>
    covered_extendKeys (h.imp_left covered_of_mem)
  cases isolation with
  | snapshot => exact hmerged (h.resolve_right (by simp))
  | serializable => exact covered_extendKeys (h.imp_left hmerged)

end Antichains

/-! ## Assertions of admitted batches -/

/-- What is relevant to a key is relevant to its ancestors. -/
theorem relevant_of_startsWith {key ancestor : Key} (h : key.startsWith ancestor = true) {e : Entry}
    (he : relevant (.prefixed key) e = true) : relevant (.prefixed ancestor) e = true := by
  have hcovers : (Range.prefixed ancestor).coversRange (.prefixed key) = true := h
  unfold relevant mutationRelevant at he ⊢
  cases hm : e.mutation with
  | set target value =>
    simp only [hm] at he ⊢
    exact Range.coversKey_of_coversRange hcovers he
  | delete target =>
    simp only [hm] at he ⊢
    exact Range.coversKey_of_coversRange hcovers he
  | deleteRange target =>
    simp only [hm] at he ⊢
    rcases Range.overlaps_iff.mp he with he | he
    · exact Range.overlaps_iff.mpr (.inl (Range.coversRange_trans hcovers he))
    · rw [Range.coversRange_prefixed] at he
      exact Range.overlaps_of_coversKey h he

/-- What no violated assertion means for one of the assertions. -/
theorem seq_le_of_asserted {es : List Entry} {device : DeviceId} {batch : AdmissionBatch}
    (h : assertFailures es device batch = []) {assertion : RangeAssert}
    (hmem : assertion ∈ batch.rangeAsserts) {e : Entry} (he : e ∈ es)
    (hrelevant : relevant (.prefixed assertion.assertPrefix) e = true) (hforeign : e.device ≠ device) :
    e.seq ≤ assertion.upto := by
  have hnone : assertFailure es device assertion = none :=
    filterMap_eq_nil_iff.mp h assertion hmem
  have hmax : foreignMax es (.prefixed assertion.assertPrefix) device ≤ assertion.upto := by
    by_contra hlt
    rw [assertFailure, if_pos (not_le.mp hlt)] at hnone
    cases hnone
  have htop : e.seq ≤ foreignMax es (.prefixed assertion.assertPrefix) device :=
    le_top_of_mem he (by simp [hrelevant, hforeign])
  exact htop.trans hmax

/-- Every batch of the log met its assertions against the log before it. -/
def Asserted (log : List Admission) : Prop :=
  ∀ pre a post, log = pre ++ a :: post → assertFailures (events pre) a.device a.batch = []

theorem Asserted.nil : Asserted [] := by
  intro pre a post h
  simp at h

theorem Asserted.concat {log : List Admission} (h : Asserted log) {a : Admission}
    (ha : assertFailures (events log) a.device a.batch = []) : Asserted (log ++ [a]) := by
  intro pre b post hsplit
  rcases eq_nil_or_concat post with rfl | ⟨rest, last, rfl⟩
  · obtain ⟨rfl, hab⟩ := append_inj' hsplit rfl
    cases hab
    exact ha
  · refine h pre b rest ?_
    rw [concat_eq_append, ← cons_append, ← append_assoc] at hsplit
    exact (append_inj' hsplit rfl).1

theorem Asserted.batches {reject : List RangeAssertFailure → Exit} {device : DeviceId}
    {log : List Admission} (h : Asserted log) {batches : List AdmissionBatch}
    {added : List Admission} (hadded : specBatches reject device log batches = .ok added) :
    Asserted (log ++ added) := by
  induction batches generalizing log added with
  | nil =>
    cases hadded
    rwa [append_nil]
  | cons batch rest ih =>
    rw [specBatches] at hadded
    obtain ⟨a, hbatch, hadded⟩ := of_bind hadded
    obtain ⟨more, hmore, hadded⟩ := of_bind hadded
    cases hadded
    obtain ⟨haccepted, rfl⟩ := specBatch_eq_ok_iff.mp hbatch
    have hone : Asserted (log ++ [⟨logSeq log, device, batch⟩]) := h.concat haccepted.asserts
    rw [append_cons]
    exact ih hone hmore

section Runs

variable {sha256 : Bytes → ByteArr 32} {space : SpaceId}

theorem Asserted.step {verb : Verb} {L L' : Space} (h : Asserted L.log)
    (hstep : Step sha256 space verb L L') : Asserted L'.log := by
  cases hstep with
  | admitRequest hspec =>
    obtain ⟨-, last, added, -, -, hadded, -, rfl⟩ := specAdmit_eq_ok_iff.mp hspec
    exact h.batches hadded
  | idle => exact h
  | contend => exact h
  | acquire => exact h
  | renew => exact h
  | release => exact h
  | listLeases => exact h

theorem run_asserted (verbs : List Verb) : Asserted (log sha256 space verbs) := by
  induction verbs using List.reverseRecOn with
  | nil => exact Asserted.nil
  | append_singleton verbs verb ih =>
    obtain ⟨L, hD, hV, hlog⟩ := run_refines sha256 space verbs
    obtain ⟨L', -, hstep, hlog'⟩ := exec_step hD hV verb
    rw [log_concat, ← hlog, ← hlog']
    exact Asserted.step (hlog ▸ ih) hstep

/-- What precedes a batch and is relevant to one of its assertions is not newer than
asserted, or an earlier batch of the same device. -/
theorem old_or_own_of_asserted {verbs : List Verb} {pre post : List Admission} {a : Admission}
    (hlog : log sha256 space verbs = pre ++ a :: post) {assertion : RangeAssert}
    (hassertion : assertion ∈ a.batch.rangeAsserts) {e : Entry} (he : e ∈ events pre)
    (hrelevant : relevant (.prefixed assertion.assertPrefix) e = true) :
    e.seq ≤ assertion.upto ∨
      e.device = a.device ∧ e.deviceEntry.tag.deviceSeq < a.batch.deviceSeq := by
  by_cases hown : e.device = a.device
  · refine .inr ⟨hown, ?_⟩
    obtain ⟨L, -, hV, hL⟩ := run_refines sha256 space verbs
    rw [hlog] at hL
    obtain ⟨b, hb, heb⟩ := mem_events_iff.mp he
    have hbL : b ∈ L.log := by
      rw [hL]
      exact mem_append_left _ hb
    have hdevice := hV.logged.device_of_mem_entries hbL heb
    obtain ⟨i, entry, hi, rfl⟩ := mem_entries_iff.mp heb
    have htag := (hV.logged.tagged b hbL entry (mem_of_getElem? hi)).2
    have hseqs := hV.deviceSeqs a.device
    rw [hL, stream, filter_append, filter_cons_of_pos (by simp),
      pairwise_append] at hseqs
    have hbefore := hseqs.2.2 b (mem_filter.mpr ⟨hb, by simp [← hdevice, hown]⟩) a
      mem_cons_self
    exact htag.trans_lt hbefore
  · exact .inl (seq_le_of_asserted (run_asserted verbs pre a post hlog) hassertion he hrelevant hown)

end Runs

end Homebase.Refine
