import Homebase.Refine.RowFold

set_option autoImplicit false

/-!
# Refinement: row sets

Whole rows are their values, column by column.  A row set is valid if no two of its rows
share a key (`validateRows_eq_ok_iff`), so part of a valid set is valid.
-/

namespace Homebase.Multilite

open Foundation Homebase.Core List

/-! ## Row sets -/

theorem require_eq_ok_iff {ε : Type} {condition : Prop} [Decidable condition] {error : ε} {u : Unit} :
    require condition error = .ok u ↔ condition := by
  rw [require]
  split <;> simp_all

/-- The unique keys of a row, none of whose values is NULL. -/
def RowRules.uniqueKeys (rules : RowRules) (row : Row) : List Key :=
  match rules.indexEntries row with
  | .ok entries => entries.map Prod.fst
  | .error _ => []

/-- A row whose keys and references have images. -/
structure Encodes (rules : RowRules) (row : Row) : Prop where
  key : ∃ key, rules.rowKey row = .ok key
  entries : ∃ entries, rules.indexEntries row = .ok entries
  references : ∃ references, rules.foreignReferences row = .ok references

variable {rules : RowRules}

theorem RowRules.uniqueKeys_of_ok {row : Row} {entries : List (Key × Bytes)}
    (h : rules.indexEntries row = .ok entries) : rules.uniqueKeys row = entries.map Prod.fst := by
  rw [RowRules.uniqueKeys, h]

/-- Keys are added to a set as long as they are new. -/
theorem foldlM_addNew {l : List (Key × Bytes)} {set out : OrdSet Key} :
    (l.foldlM (fun (set : OrdSet Key) entry => do
      require (OrdMap.get set entry.1 = none) RowCodecError.duplicateUniqueKey
      .ok (OrdMap.insert set entry.1 ())) set) = .ok out ↔
      (l.map Prod.fst).Nodup ∧ (∀ key ∈ l.map Prod.fst, set.get key = none) ∧
        out = set.extend (l.map Prod.fst) := by
  induction l generalizing set with
  | nil => simp [pure, Except.pure, OrdSet.extend, eq_comm]
  | cons entry l ih =>
    rw [foldlM_cons, bind_eq_ok_iff]
    simp only [bind_eq_ok_iff, require_eq_ok_iff]
    constructor
    · rintro ⟨next, ⟨u, hnew, hnext⟩, hrest⟩
      cases hnext
      obtain ⟨hnodup, hold, hout⟩ := ih.mp hrest
      have hhead : entry.1 ∉ l.map Prod.fst := by
        intro hmem
        have hget := hold _ hmem
        rw [OrdMap.get_insert_self] at hget
        cases hget
      refine ⟨nodup_cons.mpr ⟨hhead, hnodup⟩, ?_, hout⟩
      intro key hkey
      rcases mem_cons.mp hkey with rfl | hkey
      · exact hnew
      · have hne : key ≠ entry.1 := fun heq => hhead (heq ▸ hkey)
        have hget := hold key hkey
        rwa [OrdMap.get_insert_of_ne _ _ hne] at hget
    · rintro ⟨hnodup, hold, hout⟩
      obtain ⟨hhead, hnodup⟩ := nodup_cons.mp hnodup
      refine ⟨_, ⟨(), hold _ mem_cons_self, rfl⟩, ih.mpr ⟨hnodup, ?_, hout⟩⟩
      intro key hkey
      have hne : key ≠ entry.1 := fun heq => hhead (heq ▸ hkey)
      rw [OrdMap.get_insert_of_ne _ _ hne]
      exact hold key (mem_cons_of_mem _ hkey)

/-- A row of a set is new in it. -/
theorem validateRow_eq_ok_iff {seen next : OrdSet Key × OrdSet Key} {row : Row} :
    validateRow rules seen row = .ok next ↔ ∃ key, rules.rowKey row = .ok key ∧
      Encodes rules row ∧ seen.1.get key = none ∧ (rules.uniqueKeys row).Nodup ∧
      (∀ unique ∈ rules.uniqueKeys row, seen.2.get unique = none) ∧
      next = (seen.1.insert key (), seen.2.extend (rules.uniqueKeys row)) := by
  rw [validateRow]
  simp only [bind_eq_ok_iff, require_eq_ok_iff, foldlM_addNew]
  constructor
  · rintro ⟨key, hkey, u, hnew, entries, hentries, indexes, ⟨hnodup, hold, rfl⟩, references,
      hreferences, hnext⟩
    cases hnext
    rw [RowRules.uniqueKeys_of_ok hentries]
    exact ⟨key, hkey, ⟨⟨key, hkey⟩, ⟨entries, hentries⟩, ⟨references, hreferences⟩⟩, hnew, hnodup,
      hold, rfl⟩
  · rintro ⟨key, hkey, ⟨-, ⟨entries, hentries⟩, ⟨references, hreferences⟩⟩, hnew, hnodup, hold, rfl⟩
    rw [RowRules.uniqueKeys_of_ok hentries] at hnodup hold ⊢
    exact ⟨key, hkey, (), hnew, entries, hentries, _, ⟨hnodup, hold, rfl⟩, references, hreferences,
      rfl⟩

/-- Rows of which no two share a key. -/
structure Apart (rules : RowRules) (rows : List Row) : Prop where
  encodes : ∀ row ∈ rows, Encodes rules row
  keys : (rows.map rules.rowKey).Nodup
  uniques : (rows.flatMap rules.uniqueKeys).Nodup

theorem foldlM_validateRow_iff {rows : List Row} {seen : OrdSet Key × OrdSet Key} :
    (∃ out, rows.foldlM (validateRow rules) seen = .ok out) ↔ Apart rules rows ∧
      (∀ row ∈ rows, ∀ key, rules.rowKey row = .ok key → seen.1.get key = none) ∧
      ∀ unique ∈ rows.flatMap rules.uniqueKeys, seen.2.get unique = none := by
  induction rows generalizing seen with
  | nil => exact ⟨fun _ => ⟨⟨by simp, by simp, by simp⟩, by simp, by simp⟩, fun _ => ⟨seen, rfl⟩⟩
  | cons row rows ih =>
    have hunfold : (∃ out, (row :: rows).foldlM (validateRow rules) seen = .ok out) ↔
        ∃ next, validateRow rules seen row = .ok next ∧
          ∃ out, rows.foldlM (validateRow rules) next = .ok out := by
      simp only [foldlM_cons, bind_eq_ok_iff]
      exact ⟨fun ⟨out, next, hnext, hout⟩ => ⟨next, hnext, out, hout⟩,
        fun ⟨next, hnext, out, hout⟩ => ⟨out, next, hnext, hout⟩⟩
    rw [hunfold]
    simp only [ih, validateRow_eq_ok_iff]
    constructor
    · rintro ⟨next, ⟨key, hkey, hencodes, hnew, hnodup, hold, rfl⟩, hapart, hkeys, huniques⟩
      -- a key of a later row was not yet seen, so it is not the one of this row either
      have hlater : ∀ other ∈ rows, ∀ k, rules.rowKey other = .ok k → k ≠ key ∧
          seen.1.get k = none := by
        intro other hother k hk
        have hget := hkeys other hother k hk
        rw [OrdMap.get_insert] at hget
        split at hget
        · cases hget
        next hne => exact ⟨hne, hget⟩
      have hlater' : ∀ unique ∈ rows.flatMap rules.uniqueKeys,
          unique ∉ rules.uniqueKeys row ∧ seen.2.get unique = none := by
        intro unique hunique
        have hget := huniques unique hunique
        rw [OrdSet.get_extend] at hget
        split at hget
        · cases hget
        next hnot => exact ⟨hnot, hget⟩
      refine ⟨⟨?_, ?_, ?_⟩, ?_, ?_⟩
      · exact forall_mem_cons.mpr ⟨hencodes, hapart.encodes⟩
      · refine nodup_cons.mpr ⟨?_, hapart.keys⟩
        intro hmem
        obtain ⟨other, hother, hsame⟩ := mem_map.mp hmem
        exact (hlater other hother key (hsame.trans hkey)).1 rfl
      · rw [flatMap_cons, nodup_append]
        refine ⟨hnodup, hapart.uniques, ?_⟩
        rintro unique hunique other hother rfl
        exact (hlater' unique hother).1 hunique
      · refine forall_mem_cons.mpr ⟨?_, fun other hother k hk => (hlater other hother k hk).2⟩
        intro k hk
        cases hkey.symm.trans hk
        exact hnew
      · intro unique hunique
        rcases mem_append.mp hunique with hunique | hunique
        · exact hold unique hunique
        · exact (hlater' unique hunique).2
    · rintro ⟨⟨hencodes, hkeys, huniques⟩, hnew, hold⟩
      obtain ⟨hencode, hencodes⟩ := forall_mem_cons.mp hencodes
      obtain ⟨key, hkey⟩ := hencode.key
      obtain ⟨hhead, hkeys⟩ := nodup_cons.mp hkeys
      rw [flatMap_cons, nodup_append] at huniques
      obtain ⟨hnodup, huniques, hdisjoint⟩ := huniques
      refine ⟨_, ⟨key, hkey, hencode, hnew row mem_cons_self key hkey, hnodup, ?_, rfl⟩,
        ⟨hencodes, hkeys, huniques⟩, ?_, ?_⟩
      · exact fun unique hunique => hold unique (mem_append_left _ hunique)
      · intro other hother k hk
        have hne : k ≠ key := by
          rintro rfl
          exact hhead (mem_map.mpr ⟨other, hother, hk.trans hkey.symm⟩)
        rw [OrdMap.get_insert_of_ne _ _ hne]
        exact hnew other (mem_cons_of_mem _ hother) k hk
      · intro unique hunique
        rw [OrdSet.get_extend, if_neg fun hmem => hdisjoint unique hmem unique hunique rfl]
        exact hold unique (mem_append_right _ hunique)

/-- `validate_structure`: rows with the same columns of which no two share a key. -/
theorem validateRows_eq_ok_iff {rows : List Row} :
    validateRows rules rows = .ok () ↔ rules.validate = .ok () ∧ rows ≠ [] ∧
      (∀ row ∈ rows, ∀ other ∈ rows, row.values.map Prod.fst = other.values.map Prod.fst) ∧
      Apart rules rows := by
  cases rows with
  | nil => simp [validateRows, bind_eq_ok_iff]
  | cons first rows =>
    unfold validateRows
    simp only [bind_eq_ok_iff, require_eq_ok_iff]
    have hfold := @foldlM_validateRow_iff rules (first :: rows) (OrdMap.empty, OrdMap.empty)
    constructor
    · rintro ⟨u, hrules, u', hcolumns, out, hout, -⟩
      refine ⟨hrules, cons_ne_nil _ _, ?_, (hfold.mp ⟨out, hout⟩).1⟩
      exact fun row hrow other hother => (hcolumns row hrow).trans (hcolumns other hother).symm
    · rintro ⟨hrules, -, hcolumns, hapart⟩
      obtain ⟨out, hout⟩ := hfold.mpr ⟨hapart, by simp, by simp⟩
      exact ⟨(), hrules, (), fun row hrow => hcolumns row hrow first mem_cons_self, out, hout,
        trivial⟩

/-- What `validate_structure` says about the changes of a table. -/
theorem TableChanges.valid_of_structure {table : TableChanges}
    (h : table.validateStructure = .ok ()) :
    (table.beforeRows ≠ [] → validateRows table.rules table.beforeRows = .ok ()) ∧
      (table.afterRows ≠ [] → validateRows table.rules table.afterRows = .ok ()) := by
  obtain ⟨-, -, h⟩ := of_bind h
  obtain ⟨-, -, h⟩ := of_bind h
  by_cases hbefore : table.beforeRows ≠ []
  · rw [if_pos hbefore] at h
    obtain ⟨u, hvalid, h⟩ := of_bind h
    refine ⟨fun _ => hvalid, fun hafter => ?_⟩
    change (if table.afterRows ≠ [] then _ else _) = _ at h
    rwa [if_pos hafter] at h
  · rw [if_neg hbefore] at h
    refine ⟨fun hne => absurd hne hbefore, fun hafter => ?_⟩
    change (if table.afterRows ≠ [] then _ else _) = _ at h
    rwa [if_pos hafter] at h

end Homebase.Multilite
