import Homebase.Foundation.Topmost
import Homebase.Refine.Assertions

set_option autoImplicit false

/-!
# Properties: pruned footprints conflict as the keys they were made of

A footprint keeps, of the keys added to it, those that lie under no other.  An insertion looks at one
predecessor and at one run of successors in a sorted set; that is enough because the keys under a
prefix stand together in the order of tuples.
-/

namespace Homebase.Properties

open Foundation Homebase.Core Server Multilite Refine List

/-! ## Keys under a prefix -/

/-- A key lies in the subtree of another. -/
def Under (key ancestor : Key) : Prop := key.startsWith ancestor = true

theorem nested : Nested Under (fun key => key.components.length) where
  refl := Key.startsWith_self
  trans := Key.startsWith_trans
  antisymm := Key.startsWith_antisymm
  depth_lt := by
    intro a b hab hne
    have hpre := Key.startsWith_iff.mp hab
    refine lt_of_le_of_ne hpre.length_le fun hlength => hne ?_
    exact Key.ext (hpre.eq_of_length hlength)

variable {a b : List KeyComponent}

theorem le_of_isPrefix (h : a <+: b) : a ≤ b := by
  obtain ⟨rest, rfl⟩ := h
  exact le_append_self a rest

/-- The tuples between a prefix and one that extends it extend it too. -/
theorem isPrefix_of_between {c : List KeyComponent} (hab : a ≤ b) (hbc : b ≤ c) (hac : a <+: c) :
    a <+: b := by
  induction a generalizing b c with
  | nil => exact nil_prefix
  | cons x a ih =>
    cases c with
    | nil => simp at hac
    | cons z c =>
      obtain ⟨rfl, hpre⟩ := cons_prefix_cons.mp hac
      cases b with
      | nil => exact absurd (nil_lt_cons x a) (not_lt.mpr hab)
      | cons y b =>
        rcases cons_le_cons_iff_lex.mp hab with hxy | ⟨rfl, hrest⟩
        · rcases cons_le_cons_iff_lex.mp hbc with hyx | ⟨rfl, -⟩
          · exact absurd (hxy.trans hyx) (lt_irrefl _)
          · exact absurd hxy (lt_irrefl _)
        · rcases cons_le_cons_iff_lex.mp hbc with hxx | ⟨-, hupper⟩
          · exact absurd hxx (lt_irrefl _)
          · exact cons_prefix_cons.mpr ⟨rfl, ih hrest hupper hpre⟩

variable {key ancestor : Key}

theorem Under.le (h : Under key ancestor) : ancestor ≤ key :=
  not_lt.mp fun hlt => not_lt.mpr (le_of_isPrefix (Key.startsWith_iff.mp h)) (Key.lt_iff.mp hlt)

/-- The keys of a subtree stand together. -/
theorem under_of_between {between : Key} (h : Under key ancestor) (hlow : ancestor ≤ between)
    (hhigh : between ≤ key) : Under between ancestor := by
  have hle : ∀ {a b : Key}, a ≤ b → a.components ≤ b.components := fun hab =>
    not_lt.mp fun hlt => not_lt.mpr hab (Key.lt_iff.mpr hlt)
  exact Key.startsWith_iff.mpr
    (isPrefix_of_between (hle hlow) (hle hhigh) (Key.startsWith_iff.mp h))

/-! ## Insertion -/

/-- The keys of an antichain. -/
def keySet (keys : PrefixAntichain) : Set Key := { key | key ∈ OrdSet.toList keys }

section Insertion

variable {keys : PrefixAntichain} {S : Set Key} {key k : Key}

theorem mem_keySet_iff : k ∈ keySet keys ↔ OrdMap.get keys k = some () :=
  OrdSet.mem_toList_iff

/-- The last key up to another one is at or after every key up to it. -/
theorem lastUpTo_of_le (hk : k ∈ keySet keys) (hle : k ≤ key) :
    ∃ last ∈ keys.lastUpTo key, last ∈ keySet keys ∧ k ≤ last ∧ last ≤ key := by
  have hmem : k ∈ (OrdSet.toList keys).filter fun k => decide (k ≤ key) :=
    mem_filter.mpr ⟨hk, decide_eq_true hle⟩
  obtain ⟨last, hlast⟩ : ∃ last, keys.lastUpTo key = some last :=
    Option.isSome_iff_exists.mp (getLast?_isSome.mpr (ne_nil_of_mem hmem))
  obtain ⟨hkeys, hup⟩ := mem_filter.mp (mem_of_getLast? hlast)
  refine ⟨last, hlast, hkeys, ?_, of_decide_eq_true hup⟩
  obtain ⟨front, hfront⟩ := getLast?_eq_some_iff.mp hlast
  have hsorted : (front ++ [last]).Pairwise (· < ·) :=
    hfront ▸ (OrdSet.toList_sorted keys).filter _
  rw [hfront] at hmem
  rcases mem_append.mp hmem with hmem | hmem
  · exact ((pairwise_append.mp hsorted).2.2 k hmem last mem_cons_self).le
  · exact (mem_singleton.mp hmem).le

/-- Among sorted keys that are not before `key`, those under it come first. -/
theorem mem_takeWhile_of_under {run : List Key} (hsorted : run.Pairwise (· < ·))
    (hfrom : ∀ d ∈ run, key ≤ d) (hk : k ∈ run) (hunder : Under k key) :
    k ∈ run.takeWhile fun candidate => candidate.startsWith key := by
  induction run with
  | nil => cases hk
  | cons first rest ih =>
    obtain ⟨hfirst, hrest⟩ := pairwise_cons.mp hsorted
    have hle : first ≤ k := by
      rcases mem_cons.mp hk with rfl | hk
      · exact le_refl _
      · exact (hfirst k hk).le
    have hstarts : first.startsWith key = true :=
      under_of_between hunder (hfrom first mem_cons_self) hle
    rw [takeWhile_cons, if_pos hstarts]
    rcases mem_cons.mp hk with rfl | hk
    · exact mem_cons_self
    · exact mem_cons_of_mem _ (ih hrest (fun d hd => hfrom d (mem_cons_of_mem _ hd)) hk)

theorem mem_successors_iff :
    k ∈ (OrdMap.range keys key none).map Prod.fst ↔ k ∈ keySet keys ∧ key ≤ k := by
  rw [mem_map, mem_keySet_iff]
  constructor
  · rintro ⟨⟨k, u⟩, hmem, rfl⟩
    obtain ⟨hget, hle, -⟩ := OrdMap.mem_range_iff.mp hmem
    exact ⟨hget, hle⟩
  · rintro ⟨hget, hle⟩
    exact ⟨(k, ()), OrdMap.mem_range_iff.mpr ⟨hget, hle, nofun⟩, rfl⟩

/-- The run of successors an insertion removes is the subtree of the inserted key. -/
theorem mem_descendants_iff : k ∈ ((OrdMap.range keys key none).map Prod.fst).takeWhile
        (fun candidate => candidate.startsWith key) ↔ k ∈ keySet keys ∧ Under k key := by
  constructor
  · intro hk
    refine ⟨(mem_successors_iff.mp ((takeWhile_sublist _).mem hk)).1, ?_⟩
    exact mem_takeWhile_imp (p := fun candidate : Key => candidate.startsWith key) hk
  · rintro ⟨hk, hunder⟩
    exact mem_takeWhile_of_under (pairwise_map.mpr (OrdMap.range_sorted keys key none))
      (fun d hd => (mem_successors_iff.mp hd).2) (mem_successors_iff.mpr ⟨hk, hunder.le⟩) hunder

/-- An insertion keeps the topmost of the keys added so far. -/
theorem keySet_insertKey (h : keySet keys = topmost Under S) :
    keySet (keys.insertKey key) = topmost Under (insert key S) := by
  rw [PrefixAntichain.insertKey]
  split
  next hcovering =>
    obtain ⟨c, hlast, hstarts⟩ := (Option.any_eq_true _ _).mp hcovering
    have hc : c ∈ keySet keys := mem_of_mem_filter (mem_of_getLast? hlast)
    rw [nested.topmost_insert_of_under (h ▸ hc) hstarts, h]
  next hfree =>
    have hno : ∀ a ∈ S, ¬ Under key a := by
      intro a ha hunder
      obtain ⟨k, hk, hak⟩ := nested.exists_topmost ha
      have hkey : Under key k := nested.trans hunder hak
      obtain ⟨last, hlast, hmem, hlow, hhigh⟩ := lastUpTo_of_le (h ▸ hk) hkey.le
      -- the last key up to the inserted one lies in the subtree of `k`, so it is `k`
      have hsame : k = last := (h ▸ hmem : last ∈ topmost Under S).2 k hk.1
        (under_of_between hkey hlow hhigh)
      exact hfree ((Option.any_eq_true _ _).mpr ⟨last, hlast, hsame ▸ hkey⟩)
    rw [nested.topmost_insert hno, ← h]
    ext k
    rw [mem_keySet_iff, OrdMap.get_insert, get_foldl_erase, Set.mem_insert_iff]
    by_cases hk : k = key
    · simp [hk]
    · rw [if_neg hk, or_iff_right hk]
      have hdescendant : k ∈ ((OrdMap.range keys key none).map Prod.fst).takeWhile
          (fun candidate => candidate.startsWith key) ↔ k ∈ keySet keys ∧ Under k key :=
        mem_descendants_iff
      by_cases hunder : Under k key
      · split
        next => simp [hunder]
        next hkept =>
          rw [← mem_keySet_iff]
          exact ⟨fun hmem => absurd (hdescendant.mpr ⟨hmem, hunder⟩) hkept, fun hmem => hmem.1⟩
      · rw [if_neg fun hmem => hunder (hdescendant.mp hmem).2, ← mem_keySet_iff]
        exact ⟨fun hmem => ⟨hmem, hunder⟩, fun hmem => hmem.1⟩

theorem keySet_extendKeys {other : PrefixAntichain} {T : Set Key}
    (h : keySet keys = topmost Under S) (hother : keySet other = topmost Under T) :
    keySet (keys.extendKeys other) = topmost Under (S ∪ T) := by
  have hfold : ∀ (added : List Key) (keys : PrefixAntichain) (S : Set Key),
      keySet keys = topmost Under S →
        keySet (added.foldl PrefixAntichain.insertKey keys) =
          topmost Under (S ∪ { key | key ∈ added }) := by
    intro added
    induction added with
    | nil =>
      intro keys S h
      simpa using h
    | cons first rest ih =>
      intro keys S h
      have hset : S ∪ { key | key ∈ first :: rest } = insert first S ∪ { key | key ∈ rest } := by
        ext k
        simp only [Set.mem_union, Set.mem_ofPred_eq, mem_cons, Set.mem_insert_iff]
        tauto
      rw [foldl_cons, ih _ _ (keySet_insertKey h), hset]
  rw [PrefixAntichain.extendKeys, hfold _ _ _ h, ← nested.topmost_union_topmost (T := T), ← hother]
  rfl

end Insertion

/-! ## Footprints -/

/-- The antichain of a class of guards. -/
def keysOf (footprint : ConflictFootprint) : GuardClass → PrefixAntichain
  | .invariant => footprint.constraints
  | .write => footprint.writes
  | .serializableRead => footprint.reads

/-- A way to put a footprint together: keys are added one by one, and footprints that were put
together on their own are merged. -/
inductive Build where
  | new
  | add (build : Build) (guard : Guard)
  | extend (build other : Build)

namespace Build

/-- The footprint that comes out. -/
def footprint : Build → ConflictFootprint
  | new => .new
  | add build guard => build.footprint.addGuard guard
  | extend build other => build.footprint.extend other.footprint

/-- The keys that went in, by class. -/
def added : Build → GuardClass → Set Key
  | new, _ => ∅
  | add build guard, c =>
      if guard.guardClass = c then insert guard.target (build.added c) else build.added c
  | extend build other, c => build.added c ∪ other.added c

/-- The keys that went in and are asserted at an isolation level. -/
def asserted (build : Build) : IsolationLevel → Set Key
  | .snapshot => build.added .write ∪ build.added .invariant
  | .serializable => build.added .write ∪ build.added .invariant ∪ build.added .serializableRead

/-- A footprint keeps the topmost of the keys that went in. -/
theorem keySet_keysOf (build : Build) (c : GuardClass) :
    keySet (keysOf build.footprint c) = topmost Under (build.added c) := by
  induction build with
  | new =>
    have hempty : keysOf ConflictFootprint.new c = OrdMap.empty := by cases c <;> rfl
    ext k
    rw [footprint, hempty, mem_keySet_iff, OrdMap.get_empty]
    exact ⟨nofun, fun hk => hk.1.elim⟩
  | add build guard ih =>
    obtain ⟨target, class'⟩ := guard
    by_cases hclass : class' = c
    · subst hclass
      rw [added, if_pos rfl, ← keySet_insertKey ih]
      cases class' <;> rfl
    · rw [added, if_neg hclass, ← ih]
      cases class' <;> cases c <;> first | rfl | exact absurd rfl hclass
  | extend build other ih ihother =>
    rw [added, ← keySet_extendKeys ih ihother]
    cases c <;> rfl

theorem keySet_selected (build : Build) (isolation : IsolationLevel) :
    keySet (build.footprint.selected isolation) = topmost Under (build.asserted isolation) := by
  have hmerged := keySet_extendKeys (build.keySet_keysOf .write) (build.keySet_keysOf .invariant)
  cases isolation with
  | snapshot => exact hmerged
  | serializable => exact keySet_extendKeys hmerged (build.keySet_keysOf .serializableRead)

end Build

/-! ## Overlap -/

/-- A region that overlaps a prefix overlaps the prefixes above it. -/
theorem overlapsPrefix_of_under {region : WriteRegion} (hunder : Under key ancestor)
    (h : region.overlapsPrefix key = true) : region.overlapsPrefix ancestor = true := by
  cases region with
  | point written => exact Key.startsWith_trans h hunder
  | range region =>
    cases region with
    | full => rfl
    | prefixed written =>
      rw [WriteRegion.overlapsPrefix, Bool.or_eq_true] at h ⊢
      rcases h with h | h
      · exact .inl (Key.startsWith_trans h hunder)
      · exact Key.startsWith_or h hunder

/-- The authority's test of a mutation against a prefix is the local one of the region it writes. -/
theorem mutationRelevant_eq_overlapsPrefix (q : Key) (m : Mutation Bytes) :
    mutationRelevant (.prefixed q) m = (WriteRegion.ofMutation m).overlapsPrefix q := by
  cases m with
  | set key value => rfl
  | delete key => rfl
  | deleteRange region =>
    cases region with
    | full => rfl
    | prefixed written => rfl

/-- One of some committed regions overlaps a prefix. -/
def Overlapped (committed : List WriteRegion) (key : Key) : Prop :=
  ∃ written ∈ committed, written.overlapsPrefix key = true

theorem Overlapped.of_under {committed : List WriteRegion} (hunder : Under key ancestor)
    (h : Overlapped committed key) : Overlapped committed ancestor := by
  obtain ⟨written, hmem, hoverlap⟩ := h
  exact ⟨written, hmem, overlapsPrefix_of_under hunder hoverlap⟩

theorem overlapped_writesFromMutations_iff {mutations : List (Mutation Bytes)} :
    Overlapped (writesFromMutations mutations) key ↔
      ∃ m ∈ mutations, mutationRelevant (.prefixed key) m = true := by
  have hmem : ∀ written, written ∈ writesFromMutations mutations ↔
      ∃ m ∈ mutations, WriteRegion.ofMutation m = written := by
    intro written
    rw [writesFromMutations, OrdSet.mem_toList_ofList, mem_map]
  constructor
  · rintro ⟨written, hwritten, hoverlap⟩
    obtain ⟨m, hm, rfl⟩ := (hmem written).mp hwritten
    exact ⟨m, hm, (mutationRelevant_eq_overlapsPrefix key m).trans hoverlap⟩
  · rintro ⟨m, hm, hrelevant⟩
    exact ⟨_, (hmem _).mpr ⟨m, hm, rfl⟩,
      (mutationRelevant_eq_overlapsPrefix key m).symm.trans hrelevant⟩

namespace Build

/-- Committed regions overlap a stored key of a class just when they overlap one that went in. -/
theorem exists_keysOf_iff (build : Build) (c : GuardClass) (committed : List WriteRegion) :
    (∃ key ∈ OrdSet.toList (keysOf build.footprint c), Overlapped committed key) ↔
      ∃ key ∈ build.added c, Overlapped committed key := by
  have hiff : (∃ key ∈ topmost Under (build.added c), Overlapped committed key) ↔
      ∃ key ∈ build.added c, Overlapped committed key :=
    nested.exists_topmost_iff Overlapped.of_under
  rwa [← build.keySet_keysOf c] at hiff

theorem conflictsWithWrites_iff_asserted (build : Build) (isolation : IsolationLevel)
    (committed : List WriteRegion) :
    build.footprint.conflictsWithWrites isolation committed = true ↔
      ∃ key ∈ build.asserted isolation, Overlapped committed key := by
  rw [ConflictFootprint.conflictsWithWrites_iff]
  have hwrites := build.exists_keysOf_iff .write committed
  have hconstraints := build.exists_keysOf_iff .invariant committed
  have hreads := build.exists_keysOf_iff .serializableRead committed
  cases isolation with
  | snapshot =>
    simp only [ConflictFootprint.assertedKeys, asserted, append_nil, mem_append,
      Set.mem_union, or_and_right, exists_or]
    exact or_congr hwrites hconstraints
  | serializable =>
    simp only [ConflictFootprint.assertedKeys, asserted, mem_append, Set.mem_union,
      or_and_right, exists_or]
    exact or_congr (or_congr hwrites hconstraints) hreads

/-- Committed regions overlap a prefix of the plan just when they overlap an asserted key that went
in. -/
theorem exists_plan_iff (build : Build) (isolation : IsolationLevel) (upto : AdmissionSeq)
    (committed : List WriteRegion) :
    (∃ assertion ∈ build.footprint.plan isolation upto,
        Overlapped committed assertion.assertPrefix) ↔
      ∃ key ∈ build.asserted isolation, Overlapped committed key := by
  have hiff : (∃ key ∈ topmost Under (build.asserted isolation), Overlapped committed key) ↔
      ∃ key ∈ build.asserted isolation, Overlapped committed key :=
    nested.exists_topmost_iff Overlapped.of_under
  rw [← build.keySet_selected isolation] at hiff
  rw [← hiff, ConflictFootprint.plan]
  simp only [mem_map, exists_exists_and_eq_and]
  rfl

end Build

/-- A footprint is what its three antichains are. -/
theorem footprint_eq_iff {a b : ConflictFootprint} :
    a = b ↔ ∀ c, keySet (keysOf a c) = keySet (keysOf b c) := by
  constructor
  · rintro rfl c
    rfl
  · intro h
    have hkeys : ∀ c, keysOf a c = keysOf b c := by
      intro c
      refine OrdMap.ext_get fun k => Option.ext fun u => ?_
      have hmem : k ∈ keySet (keysOf a c) ↔ k ∈ keySet (keysOf b c) := by rw [h c]
      rwa [mem_keySet_iff, mem_keySet_iff] at hmem
    obtain ⟨writes, constraints, reads⟩ := a
    obtain ⟨writes', constraints', reads'⟩ := b
    obtain rfl : writes = writes' := hkeys .write
    obtain rfl : constraints = constraints' := hkeys .invariant
    obtain rfl : reads = reads' := hkeys .serializableRead
    rfl

/-! ## Pruning -/

/-- Pruning preserves conflicts.  However a footprint is put together, the keys it stores of a class
are no prefixes of each other and cover the subtrees of the keys that went in; two footprints are
equal just when the same subtrees went into them, in whatever order.  At both isolation levels the
local check finds a conflict with committed regions just when one of them overlaps a key that went in
and is asserted, and just when the authority finds a mutation that wrote them relevant to a prefix of
the plan. -/
theorem footprint_preserves_conflicts (build : Build) :
    (∀ c, IsAntichain Under (keySet (keysOf build.footprint c)) ∧
      covered Under (keySet (keysOf build.footprint c)) = covered Under (build.added c)) ∧
    (∀ other : Build, build.footprint = other.footprint ↔
      ∀ c, covered Under (build.added c) = covered Under (other.added c)) ∧
    (∀ isolation committed, build.footprint.conflictsWithWrites isolation committed = true ↔
      ∃ key ∈ build.asserted isolation, ∃ written ∈ committed,
        written.overlapsPrefix key = true) ∧
    (∀ isolation upto mutations,
      build.footprint.conflictsWithWrites isolation (writesFromMutations mutations) = true ↔
        ∃ assertion ∈ build.footprint.plan isolation upto, ∃ m ∈ mutations,
          mutationRelevant (.prefixed assertion.assertPrefix) m = true) := by
  refine ⟨fun c => ?_, fun other => ?_, build.conflictsWithWrites_iff_asserted,
    fun isolation upto mutations => ?_⟩
  · rw [build.keySet_keysOf c]
    exact ⟨isAntichain_topmost, nested.covered_topmost⟩
  · rw [footprint_eq_iff]
    refine forall_congr' fun c => ?_
    rw [build.keySet_keysOf c, other.keySet_keysOf c, nested.topmost_eq_iff]
  · rw [build.conflictsWithWrites_iff_asserted, ← build.exists_plan_iff isolation upto]
    simp only [overlapped_writesFromMutations_iff]

end Homebase.Properties
