import Homebase.Foundation.Fixed

set_option autoImplicit false

/-!
# Ordered maps and sets

`BTreeMap` as a strictly sorted association list.  The order of the keys is a
field of the structure, so two maps with equal lookups are equal maps
(`OrdMap.ext_get`), and a half-open range of the map is a sublist of it.

Lists are enough for every fact used here: the development reads a map only
through `get`, through an ordered range, and through the iteration of all its
entries in key order.  A set (`BTreeSet`) is a map without values.
-/

namespace Homebase.Foundation

open List

/-! ## Strictly sorted lists -/

section Sorted

variable {α : Type}

/-- Two lists strictly sorted by one asymmetric relation with the same members
are the same list. -/
theorem eq_of_pairwise_of_mem_iff {r : α → α → Prop}
    (hasymm : ∀ a b, r a b → ¬ r b a) {l l' : List α}
    (hl : l.Pairwise r) (hl' : l'.Pairwise r)
    (hmem : ∀ x, x ∈ l ↔ x ∈ l') : l = l' := by
  have hirrefl : ∀ a, ¬ r a a := fun a h => hasymm a a h h
  have hnodup : ∀ {m : List α}, m.Pairwise r → m.Nodup := by
    intro m hm
    refine hm.imp ?_
    intro a b hab heq
    subst heq
    exact hirrefl a hab
  have hperm : l.Perm l' := (perm_ext_iff_of_nodup (hnodup hl) (hnodup hl')).mpr hmem
  exact hperm.eq_of_pairwise (fun a b _ _ hab hba => absurd hba (hasymm a b hab)) hl hl'

end Sorted

/-- `BTreeMap<K, V>`. -/
structure OrdMap (K V : Type) [LinearOrder K] where
  entries : List (K × V)
  sorted : entries.Pairwise fun a b => a.1 < b.1

namespace OrdMap

variable {K V : Type} [LinearOrder K]

/-- `BTreeMap::new`. -/
def empty : OrdMap K V := ⟨[], List.Pairwise.nil⟩

instance : Inhabited (OrdMap K V) := ⟨empty⟩

/-- Lookup in an association list. -/
def lookup (k : K) : List (K × V) → Option V
  | [] => none
  | (j, v) :: rest => if k = j then some v else lookup k rest

/-- `BTreeMap::get`. -/
def get (m : OrdMap K V) (k : K) : Option V := lookup k m.entries

/-- `BTreeMap::contains_key`. -/
def contains (m : OrdMap K V) (k : K) : Bool := (m.get k).isSome

/-- Insertion in a sorted association list, replacing an equal key. -/
def insertEntry (k : K) (v : V) : List (K × V) → List (K × V)
  | [] => [(k, v)]
  | (j, w) :: rest =>
      if k < j then (k, v) :: (j, w) :: rest
      else if k = j then (k, v) :: rest
      else (j, w) :: insertEntry k v rest

variable {k : K} {v : V} {l : List (K × V)}

theorem mem_insertEntry {p : K × V} (h : p ∈ insertEntry k v l) : p = (k, v) ∨ p ∈ l := by
  induction l with
  | nil => simpa [insertEntry] using h
  | cons q rest ih =>
    obtain ⟨j, w⟩ := q
    rw [insertEntry] at h
    split_ifs at h
    · simpa using h
    · rcases mem_cons.mp h with h | h
      · exact Or.inl h
      · exact Or.inr (mem_cons_of_mem _ h)
    · rcases mem_cons.mp h with h | h
      · exact Or.inr (h ▸ mem_cons_self)
      · rcases ih h with h | h
        · exact Or.inl h
        · exact Or.inr (mem_cons_of_mem _ h)

theorem insertEntry_sorted (hl : l.Pairwise fun a b => a.1 < b.1) (k : K) (v : V) :
    (insertEntry k v l).Pairwise fun a b => a.1 < b.1 := by
  induction l with
  | nil => simp [insertEntry]
  | cons q rest ih =>
    obtain ⟨j, w⟩ := q
    rw [pairwise_cons] at hl
    obtain ⟨hj, hrest⟩ := hl
    rw [insertEntry]
    split_ifs with hlt heq
    · refine pairwise_cons.mpr ⟨?_, pairwise_cons.mpr ⟨hj, hrest⟩⟩
      intro p hp
      rcases mem_cons.mp hp with rfl | hp
      · exact hlt
      · exact hlt.trans (hj p hp)
    · subst heq
      exact pairwise_cons.mpr ⟨hj, hrest⟩
    · refine pairwise_cons.mpr ⟨?_, ih hrest⟩
      intro p hp
      rcases mem_insertEntry hp with rfl | hp
      · exact lt_of_le_of_ne (not_lt.mp hlt) (Ne.symm heq)
      · exact hj p hp

/-- `BTreeMap::insert`. -/
def insert (m : OrdMap K V) (k : K) (v : V) : OrdMap K V :=
  ⟨insertEntry k v m.entries, insertEntry_sorted m.sorted k v⟩

/-- `BTreeMap::remove`. -/
def erase (m : OrdMap K V) (k : K) : OrdMap K V :=
  ⟨m.entries.filter fun p => decide (p.1 ≠ k), m.sorted.filter _⟩

/-- `BTreeMap::retain`. -/
def retain (m : OrdMap K V) (keep : K → V → Bool) : OrdMap K V :=
  ⟨m.entries.filter fun p => keep p.1 p.2, m.sorted.filter _⟩

/-- The same keys with other values. -/
def mapValues {W : Type} (m : OrdMap K V) (f : V → W) : OrdMap K W :=
  ⟨m.entries.map fun p => (p.1, f p.2), pairwise_map.mpr m.sorted⟩

/-- `BTreeMap::values`, in key order. -/
def values (m : OrdMap K V) : List V := m.entries.map Prod.snd

/-- The entries with keys in `[start, stop)`, in key order; `none` is unbounded. -/
def range (m : OrdMap K V) (start : K) (stop : Option K) : List (K × V) :=
  m.entries.filter fun p => decide (start ≤ p.1) && stop.all fun s => decide (p.1 < s)

/-! ## Lookups -/

theorem lookup_eq_none_of_lt (h : ∀ p ∈ l, k < p.1) : lookup k l = none := by
  induction l with
  | nil => rfl
  | cons q rest ih =>
    obtain ⟨j, w⟩ := q
    have hkj : k < j := h (j, w) mem_cons_self
    rw [lookup, if_neg hkj.ne]
    exact ih fun p hp => h p (mem_cons_of_mem _ hp)

theorem lookup_eq_some_iff (hl : l.Pairwise fun a b => a.1 < b.1) :
    lookup k l = some v ↔ (k, v) ∈ l := by
  induction l with
  | nil => simp [lookup]
  | cons q rest ih =>
    obtain ⟨j, w⟩ := q
    rw [pairwise_cons] at hl
    obtain ⟨hj, hrest⟩ := hl
    rw [lookup]
    by_cases hkj : k = j
    · subst hkj
      rw [if_pos rfl]
      constructor
      · intro h
        cases h
        exact mem_cons_self
      · intro h
        rcases mem_cons.mp h with h | h
        · cases h; rfl
        · exact absurd (hj _ h) (lt_irrefl k)
    · rw [if_neg hkj, ih hrest, mem_cons]
      constructor
      · exact Or.inr
      · rintro (h | h)
        · cases h; exact absurd rfl hkj
        · exact h

variable {m : OrdMap K V}

/-- An entry is what a lookup finds. -/
theorem mem_entries_iff : (k, v) ∈ m.entries ↔ m.get k = some v :=
  (lookup_eq_some_iff m.sorted).symm

@[simp] theorem get_empty (k : K) : (empty : OrdMap K V).get k = none := rfl

theorem lookup_insertEntry (hl : l.Pairwise fun a b => a.1 < b.1) (k j : K) (v : V) :
    lookup j (insertEntry k v l) = if j = k then some v else lookup j l := by
  induction l with
  | nil => rfl
  | cons q rest ih =>
    obtain ⟨i, w⟩ := q
    rw [pairwise_cons] at hl
    obtain ⟨hi, hrest⟩ := hl
    rw [insertEntry]
    by_cases hlt : k < i
    · rw [if_pos hlt, lookup]
    · rw [if_neg hlt]
      by_cases heq : k = i
      · subst heq
        rw [if_pos rfl, lookup, lookup]
        split_ifs <;> rfl
      · rw [if_neg heq, lookup, lookup, ih hrest]
        by_cases hjk : j = k
        · subst hjk
          rw [if_neg heq, if_pos rfl, if_pos rfl]
        · rw [if_neg hjk]
          split_ifs <;> rfl

theorem get_insert (m : OrdMap K V) (k j : K) (v : V) :
    (m.insert k v).get j = if j = k then some v else m.get j :=
  lookup_insertEntry m.sorted k j v

@[simp] theorem get_insert_self (m : OrdMap K V) (k : K) (v : V) :
    (m.insert k v).get k = some v := by
  rw [get_insert, if_pos rfl]

theorem get_insert_of_ne (m : OrdMap K V) {k j : K} (v : V) (h : j ≠ k) :
    (m.insert k v).get j = m.get j := by
  rw [get_insert, if_neg h]

theorem get_retain (m : OrdMap K V) (keep : K → V → Bool) (k : K) :
    (m.retain keep).get k = (m.get k).filter (keep k) := by
  cases h : m.get k with
  | none =>
    rw [Option.filter_none, Option.eq_none_iff_forall_ne_some]
    intro v hv
    rw [← mem_entries_iff, retain] at hv
    have := (mem_filter.mp hv).1
    rw [mem_entries_iff, h] at this
    cases this
  | some v =>
    have hmem : (k, v) ∈ m.entries := mem_entries_iff.mpr h
    cases hk : keep k v with
    | true =>
      rw [Option.filter_some_pos hk]
      exact mem_entries_iff.mp (mem_filter.mpr ⟨hmem, hk⟩)
    | false =>
      rw [Option.filter_some_neg (by simp [hk]), Option.eq_none_iff_forall_ne_some]
      intro w hw
      rw [← mem_entries_iff, retain] at hw
      obtain ⟨hw1, hw2⟩ := mem_filter.mp hw
      rw [mem_entries_iff, h] at hw1
      cases hw1
      simp [hk] at hw2

theorem get_mapValues {W : Type} (m : OrdMap K V) (f : V → W) (k : K) :
    (m.mapValues f).get k = (m.get k).map f := by
  simp only [get, mapValues]
  induction m.entries with
  | nil => rfl
  | cons p rest ih =>
    simp only [map_cons, lookup]
    split
    · rfl
    · exact ih

theorem get_erase (m : OrdMap K V) (k j : K) :
    (m.erase k).get j = if j = k then none else m.get j := by
  have h : m.erase k = m.retain fun i _ => decide (i ≠ k) := rfl
  rw [h, get_retain]
  cases m.get j <;> by_cases hjk : j = k <;> simp [Option.filter, hjk]

/-- Maps are determined by their lookups. -/
theorem ext_get {m n : OrdMap K V} (h : ∀ k, m.get k = n.get k) : m = n := by
  have hentries : m.entries = n.entries := by
    refine eq_of_pairwise_of_mem_iff (fun a b hab hba => ?_) m.sorted n.sorted ?_
    · exact lt_irrefl _ (hab.trans hba)
    · rintro ⟨k, v⟩
      rw [mem_entries_iff, mem_entries_iff, h k]
  cases m; cases n; cases hentries; rfl

instance [DecidableEq V] : DecidableEq (OrdMap K V) := fun m n =>
  decidable_of_iff (m.entries = n.entries)
    ⟨fun h => by cases m; cases n; cases h; rfl, fun h => h ▸ rfl⟩

/-! ## Ranges -/

/-- A second insertion at a key replaces the first. -/
@[simp] theorem insert_insert (m : OrdMap K V) (k : K) (v w : V) :
    (m.insert k v).insert k w = m.insert k w := by
  refine ext_get fun j => ?_
  rw [get_insert, get_insert, get_insert]
  split <;> rfl

/-- Inserting the value a key has changes nothing. -/
theorem insert_of_get (h : m.get k = some v) : m.insert k v = m := by
  refine ext_get fun j => ?_
  rw [get_insert]
  split
  next hj => rw [hj, h]
  next => rfl

theorem mem_takeWhile_of_sorted (hl : l.Pairwise fun a b => a.1 < b.1) (bound : K) (p : K × V) :
    p ∈ l.takeWhile (fun row => decide (row.1 ≤ bound)) ↔ p ∈ l ∧ p.1 ≤ bound := by
  induction l with
  | nil => simp
  | cons first rest ih =>
    obtain ⟨hfirst, hrest⟩ := pairwise_cons.mp hl
    by_cases hle : first.1 ≤ bound
    · rw [takeWhile_cons_of_pos (by simpa using hle), mem_cons, mem_cons, ih hrest]
      constructor
      · rintro (rfl | ⟨hmem, hp⟩)
        · exact ⟨.inl rfl, hle⟩
        · exact ⟨.inr hmem, hp⟩
      · rintro ⟨rfl | hmem, hp⟩
        · exact .inl rfl
        · exact .inr ⟨hmem, hp⟩
    · rw [takeWhile_cons_of_neg (by simpa using hle)]
      constructor
      · intro hmem
        cases hmem
      · rintro ⟨hmem, hp⟩
        rcases mem_cons.mp hmem with rfl | hmem
        · exact absurd hp hle
        · exact absurd (le_trans (le_of_lt (hfirst p hmem)) hp) hle

/-- The entries up to a key. -/
theorem mem_takeWhile_le_iff (m : OrdMap K V) (bound : K) (p : K × V) :
    p ∈ m.entries.takeWhile (fun row => decide (row.1 ≤ bound)) ↔
      p ∈ m.entries ∧ p.1 ≤ bound :=
  mem_takeWhile_of_sorted m.sorted bound p

theorem entries_eq_nil_iff : m.entries = [] ↔ ∀ k, m.get k = none := by
  constructor
  · intro h k
    rw [get, h]
    rfl
  · intro h
    have hempty : m = empty := ext_get fun k => h k
    rw [hempty]
    rfl

theorem mem_range_iff {start : K} {stop : Option K} : (k, v) ∈ m.range start stop ↔
      m.get k = some v ∧ start ≤ k ∧ ∀ s, stop = some s → k < s := by
  rw [range, mem_filter, mem_entries_iff]
  cases stop <;> simp

theorem range_sorted (m : OrdMap K V) (start : K) (stop : Option K) :
    (m.range start stop).Pairwise fun a b => a.1 < b.1 :=
  m.sorted.filter _

theorem mem_values_iff : v ∈ m.values ↔ ∃ k, m.get k = some v := by
  simp only [values, mem_map, Prod.exists, exists_eq_right, mem_entries_iff]

/-- Inserting sorted entries one by one. -/
theorem get_foldl_insert (hl : l.Pairwise fun a b => a.1 < b.1) (acc : OrdMap K V) (k : K) :
    (l.foldl (fun m p => m.insert p.1 p.2) acc).get k = (lookup k l).or (acc.get k) := by
  induction l generalizing acc with
  | nil => rfl
  | cons p l ih =>
    obtain ⟨hp, hl⟩ := pairwise_cons.mp hl
    rw [foldl_cons, ih hl, get_insert, lookup]
    by_cases hk : k = p.1
    · have hnone : lookup k l = none := lookup_eq_none_of_lt fun q hq => hk ▸ hp q hq
      rw [if_pos hk, if_pos hk, hnone]
      rfl
    · rw [if_neg hk, if_neg hk]

/-- A map filled from a list: the last value of a key stays. -/
theorem get_foldl_insertBy {α : Type} (key : α → K) (value : α → V) (l : List α)
    (acc : OrdMap K V) (k : K) :
    (l.foldl (fun m a => m.insert (key a) (value a)) acc).get k =
      ((l.reverse.find? fun a => decide (key a = k)).map value).or (acc.get k) := by
  induction l generalizing acc with
  | nil => rfl
  | cons a l ih =>
    rw [foldl_cons, ih, reverse_cons, find?_append, get_insert]
    cases hfind : l.reverse.find? fun a => decide (key a = k) with
    | some b => rfl
    | none =>
      by_cases hk : k = key a
      · simp [hk]
      · simp [hk, Ne.symm hk]

theorem foldl_insert_entries (m : OrdMap K V) :
    m.entries.foldl (fun acc p => acc.insert p.1 p.2) empty = m := by
  refine ext_get fun k => ?_
  rw [get_foldl_insert m.sorted, get_empty, Option.or_none]
  rfl

/-! ## Counting keys -/

/-- The number of keys with a property. -/
def count (m : OrdMap K V) (p : K → Bool) : Nat := m.entries.countP fun e => p e.1

theorem countP_insertEntry (hl : l.Pairwise fun a b => a.1 < b.1) (k : K) (v : V) (p : K → Bool) :
    (insertEntry k v l).countP (fun e => p e.1) =
      l.countP (fun e => p e.1) + if p k = true ∧ lookup k l = none then 1 else 0 := by
  induction l with
  | nil => cases hp : p k <;> simp [insertEntry, lookup, hp]
  | cons head rest ih =>
    obtain ⟨j, w⟩ := head
    obtain ⟨hhead, htail⟩ := pairwise_cons.mp hl
    by_cases hlt : k < j
    · have hnone : lookup k ((j, w) :: rest) = none := by
        refine lookup_eq_none_of_lt fun e he => ?_
        rcases mem_cons.mp he with rfl | he
        · exact hlt
        · exact hlt.trans (hhead e he)
      cases hp : p k <;> simp [insertEntry, hlt, hnone, countP_cons, hp]
    · by_cases heq : k = j
      · subst heq
        simp [insertEntry, lookup, countP_cons]
      · have hlookup : lookup k ((j, w) :: rest) = lookup k rest := by simp [lookup, heq]
        simp only [insertEntry, hlt, heq, if_false, countP_cons, ih htail, hlookup]
        omega

/-- Inserting counts a key only when it is new. -/
theorem count_insert (m : OrdMap K V) (k : K) (v : V) (p : K → Bool) :
    (m.insert k v).count p = m.count p + if p k = true ∧ m.get k = none then 1 else 0 :=
  countP_insertEntry m.sorted k v p

/-- The keys with a property, split by another one. -/
theorem count_split (m : OrdMap K V) (p q : K → Bool) :
    m.count p = m.count (fun k => p k && q k) + m.count fun k => p k && !q k := by
  simp only [count]
  induction m.entries with
  | nil => rfl
  | cons e rest ih =>
    simp only [countP_cons, ih]
    cases p e.1 <;> cases q e.1 <;> simp <;> omega

/-- Retaining by key counts the keys with both properties. -/
theorem count_retain (m : OrdMap K V) (keep p : K → Bool) :
    (m.retain fun k _ => keep k).count p = m.count fun k => p k && keep k :=
  countP_filter

theorem count_mono (m : OrdMap K V) {p q : K → Bool} (h : ∀ k, p k = true → q k = true) :
    m.count p ≤ m.count q :=
  countP_mono_left fun e _ => h e.1

theorem count_eq_zero_iff (m : OrdMap K V) (p : K → Bool) :
    m.count p = 0 ↔ ∀ k v, m.get k = some v → p k = false := by
  rw [count, countP_eq_zero]
  constructor
  · intro h k v hget
    simpa using h (k, v) (mem_entries_iff.mpr hget)
  · rintro h ⟨k, v⟩ hmem
    simp [h k v (mem_entries_iff.mp hmem)]

/-- A present key is the only one equal to itself. -/
theorem count_eq_self (m : OrdMap K V) (k : K) :
    (m.count fun j => decide (j = k)) = if (m.get k).isSome then 1 else 0 := by
  have hnodup : (m.entries.map Prod.fst).Nodup :=
    pairwise_map.mpr (m.sorted.imp fun h => ne_of_lt h)
  have hcount : (m.count fun j => decide (j = k)) = (m.entries.map Prod.fst).count k := by
    rw [count, List.count, countP_map]
    rfl
  rw [hcount, List.Nodup.count hnodup]
  congr 1
  simp only [mem_map, Prod.exists, exists_and_right, exists_eq_right, eq_iff_iff]
  rw [Option.isSome_iff_exists]
  exact exists_congr fun v => mem_entries_iff

/-- A map whose keys embed into the keys of another has no more entries. -/
theorem length_entries_le {K₂ V₂ : Type} [LinearOrder K₂] {n : OrdMap K₂ V₂} {f : K → K₂}
    (hf : Function.Injective f) (h : ∀ k v, m.get k = some v → ∃ w, n.get (f k) = some w) :
    m.entries.length ≤ n.entries.length := by
  have hnodup : (m.entries.map fun e => f e.1).Nodup := by
    refine pairwise_map.mpr (m.sorted.imp fun {a b} hlt heq => ?_)
    exact hlt.ne (hf heq)
  have hsub : (m.entries.map fun e => f e.1) ⊆ n.entries.map Prod.fst := by
    intro k hk
    obtain ⟨⟨k', v⟩, hmem, rfl⟩ := mem_map.mp hk
    obtain ⟨w, hw⟩ := h k' v (mem_entries_iff.mp hmem)
    exact mem_map.mpr ⟨(f k', w), mem_entries_iff.mpr hw, rfl⟩
  simpa using (subperm_of_subset hnodup hsub).length_le

/-- Erasing a key removes it from the count. -/
theorem count_erase (m : OrdMap K V) (k : K) (p : K → Bool) :
    (m.erase k).count p + (if p k = true ∧ (m.get k).isSome = true then 1 else 0) =
      m.count p := by
  have herase : (m.erase k).count p = m.count fun j => p j && !decide (j = k) := by
    rw [show m.erase k = m.retain fun i _ => decide (i ≠ k) from rfl, count_retain]
    simp
  have hself : (m.count fun j => p j && decide (j = k)) =
      if p k = true ∧ (m.get k).isSome = true then 1 else 0 := by
    cases hp : p k with
    | false =>
      rw [if_neg (by simp), count_eq_zero_iff]
      intro j v _
      by_cases hj : j = k
      · rw [hj, hp, Bool.false_and]
      · simp [hj]
    | true =>
      have : (fun j => p j && decide (j = k)) = fun j => decide (j = k) := by
        funext j
        by_cases hj : j = k
        · rw [hj, hp, Bool.true_and]
        · simp [hj]
      rw [this, count_eq_self]
      simp
  rw [herase, ← hself, m.count_split p fun j => decide (j = k)]
  omega

/-! ## Entries up to order -/

theorem nodup_entries (m : OrdMap K V) : m.entries.Nodup :=
  m.sorted.imp fun hlt heq => hlt.ne (congrArg Prod.fst heq)

/-- Inserting a key: its entry, and the entries of the other keys. -/
theorem perm_insert (m : OrdMap K V) (k : K) (v : V) :
    (m.insert k v).entries.Perm ((k, v) :: (m.erase k).entries) := by
  have hfresh : (k, v) ∉ (m.erase k).entries := by
    rw [mem_entries_iff, get_erase, if_pos rfl]
    simp
  refine (perm_ext_iff_of_nodup (nodup_entries _)
    (nodup_cons.mpr ⟨hfresh, nodup_entries _⟩)).mpr ?_
  rintro ⟨j, w⟩
  rw [mem_cons, mem_entries_iff, mem_entries_iff, get_insert, get_erase]
  by_cases hj : j = k
  · rw [if_pos hj, if_pos hj, hj]
    simp [eq_comm]
  · rw [if_neg hj, if_neg hj]
    simp [hj]

theorem erase_of_none (h : m.get k = none) : m.erase k = m := by
  refine ext_get fun j => ?_
  rw [get_erase]
  by_cases hj : j = k
  · rw [if_pos hj, hj, h]
  · rw [if_neg hj]

end OrdMap

/-! ## Ordered sets -/

/-- A set of keys, kept in order. -/
abbrev OrdSet (K : Type) [LinearOrder K] : Type := OrdMap K Unit

namespace OrdSet

variable {K : Type} [LinearOrder K]

/-- The elements, ascending. -/
def toList (s : OrdSet K) : List K := s.entries.map Prod.fst

/-- The set with the elements of a list. -/
def extend (s : OrdSet K) (l : List K) : OrdSet K := l.foldl (fun s k => OrdMap.insert s k ()) s

/-- The set of a list. -/
def ofList (l : List K) : OrdSet K := extend OrdMap.empty l

variable {s : OrdSet K} {k : K}

theorem mem_toList_iff : k ∈ s.toList ↔ s.get k = some () := by
  rw [toList, mem_map]
  constructor
  · rintro ⟨⟨j, u⟩, hmem, rfl⟩
    exact OrdMap.mem_entries_iff.mp hmem
  · intro h
    exact ⟨(k, ()), OrdMap.mem_entries_iff.mpr h, rfl⟩

theorem get_extend (s : OrdSet K) (l : List K) (k : K) :
    (extend s l).get k = if k ∈ l then some () else s.get k := by
  induction l generalizing s with
  | nil => rfl
  | cons j rest ih =>
    have hstep : extend s (j :: rest) = extend (OrdMap.insert s j ()) rest := rfl
    rw [hstep, ih, OrdMap.get_insert]
    by_cases hrest : k ∈ rest <;> by_cases hj : k = j <;> simp [hrest, hj]

variable {l : List K}

@[simp] theorem mem_toList_extend : k ∈ (extend s l).toList ↔ k ∈ s.toList ∨ k ∈ l := by
  rw [mem_toList_iff, get_extend, mem_toList_iff]
  by_cases h : k ∈ l <;> simp [h]

@[simp] theorem mem_toList_ofList : k ∈ (ofList l).toList ↔ k ∈ l := by
  rw [ofList, mem_toList_extend]
  simp [toList, OrdMap.empty]

theorem toList_sorted (s : OrdSet K) : s.toList.Pairwise (· < ·) :=
  pairwise_map.mpr s.sorted

end OrdSet

end Homebase.Foundation
