import Homebase.Refine.ViewWalk

set_option autoImplicit false

/-!
# Properties: the dependencies of a view

What a SELECT refers to is a question about places and scopes.  The collector answers it for the
places it goes to, so a view has exactly its dependencies when nothing is referred to only in the OVER
clause of a call with a star argument.
-/

namespace Homebase.Multilite.Sql

open Foundation List

namespace Node

/-! ## References -/

/-- The table a node names. -/
def reference : Node → Option QualifiedName
  | table (.table name _) => some name
  | expr (.inTable _ rhs none) => some rhs
  | _ => none

/-- A node names a table by a canonical name, and no WITH clause in scope binds the name. -/
def RefersHere (name : Bytes) (node : Node) (scope : List Bytes) : Prop :=
  ∃ table, node.reference = some table ∧ canonicalOf table.name = some name ∧
    (table.dbName = none → name ∉ scope)

theorem mem_children_iff (node c : Node) : c ∈ node.children ↔ c ∈ node.walked ∨ c ∈ node.hidden :=
  mem_append

/-- A dependency was collected under a canonical name. -/
def Collected (dependencies : Dependencies) (name : Bytes) : Prop :=
  (dependencies.get name).isSome = true

variable {ctes : List Bytes} {before after : Dependencies}

theorem collectTableName_spec {table : QualifiedName} {indexed : Bool}
    (h : collectTableName table indexed ctes before = .ok after) :
    table.dbName = none ∧ ∃ name, identifier table.name = .ok name ∧
      ((name.canonical ∈ ctes ∧ after = before) ∨
        (name.canonical ∉ ctes ∧ after = before.insert name.canonical name)) := by
  rw [collectTableName] at h
  split at h
  · cases h
  obtain ⟨hqualified, h⟩ := of_guard h
  obtain ⟨name, hname, h⟩ := of_bind h
  refine ⟨Option.not_isSome_iff_eq_none.mp hqualified, name, hname, ?_⟩
  split at h
  next hbound =>
    cases h
    exact .inl ⟨contains_iff_mem.mp hbound, rfl⟩
  next hfree =>
    obtain ⟨-, -, h⟩ := of_bind h
    cases h
    exact .inr ⟨fun hmem => hfree (contains_iff_mem.mpr hmem), rfl⟩

/-- Where no table is named, nothing is collected. -/
theorem collectHere_eq {node : Node} (h : collectHere node ctes before = .ok after) :
    (∃ name indexed, node = table (.table name indexed) ∧
      collectTableName name indexed ctes before = .ok after) ∨
    (node.reference = none ∧ after = before) := by
  cases node with
  | expr e =>
    cases e with
    | inTable | variableName => cases h
    | _ =>
      cases h
      exact .inr ⟨rfl, rfl⟩
  | select s =>
    obtain ⟨withCtes, body, compounds, orderBy, limit⟩ := s
    obtain ⟨names, -, h⟩ := of_bind h
    cases h
    exact .inr ⟨rfl, rfl⟩
  | table t =>
    cases t with
    | table name indexed => exact .inl ⟨name, indexed, rfl, h⟩
    | tableCall => cases h
    | select | sub =>
      cases h
      exact .inr ⟨rfl, rfl⟩
  | oneSelect | column | fromClause | constraint | window | bound =>
    cases h
    exact .inr ⟨rfl, rfl⟩

/-- What the collector does at a node is collect the table it names, unless it is bound. -/
theorem collectHere_collects (node : Node) (ctes : List Bytes) (before after : Dependencies)
    (name : Bytes) (h : collectHere node ctes before = .ok after) :
    Collected after name ↔ Collected before name ∨ RefersHere name node ctes := by
  obtain ⟨table, indexed, rfl, htable⟩ | ⟨hnone, rfl⟩ := collectHere_eq h
  · obtain ⟨hdb, found, hname, hcases⟩ := collectTableName_spec htable
    have hrefers : RefersHere name (Node.table (.table table indexed)) ctes ↔
        found.canonical = name ∧ name ∉ ctes := by
      have hcanonical : canonicalOf table.name = some found.canonical := by
        rw [canonicalOf, hname]
        rfl
      constructor
      · rintro ⟨_, ⟨⟩, hrefers, hfree⟩
        exact ⟨Option.some.inj (hcanonical.symm.trans hrefers), hfree hdb⟩
      · rintro ⟨rfl, hfree⟩
        exact ⟨table, rfl, hcanonical, fun _ => hfree⟩
    rw [hrefers]
    obtain ⟨hbound, rfl⟩ | ⟨hfree, rfl⟩ := hcases
    · have hnot : ¬ (found.canonical = name ∧ name ∉ ctes) := fun h => h.2 (h.1 ▸ hbound)
      rw [or_iff_left hnot]
    · rw [Collected, OrdMap.get_insert]
      by_cases hsame : name = found.canonical
      · subst hsame
        simp [hfree]
      · simp [Collected, hsame, Ne.symm hsame]
  · have hnot : ¬ RefersHere name node ctes := by
      rintro ⟨table, htable, -⟩
      rw [hnone] at htable
      cases htable
    rw [or_iff_left hnot]

/-- Every dependency stands under its canonical name. -/
def Keyed (dependencies : Dependencies) : Prop :=
  ∀ name found, dependencies.get name = some found → found.canonical = name

theorem collectHere_keyed (node : Node) (ctes : List Bytes) (before after : Dependencies)
    (hkeyed : Keyed before) (h : collectHere node ctes before = .ok after) : Keyed after := by
  obtain ⟨table, indexed, rfl, htable⟩ | ⟨-, rfl⟩ := collectHere_eq h
  · obtain ⟨-, found, -, ⟨-, rfl⟩ | ⟨-, rfl⟩⟩ := collectTableName_spec htable
    · exact hkeyed
    · intro name other hget
      rw [OrdMap.get_insert] at hget
      split at hget
      next hsame =>
        cases hget
        exact hsame.symm
      next => exact hkeyed name other hget
  · exact hkeyed

end Node

/-! ## Views -/

open Node

/-- A table is referred to somewhere in a SELECT, where no WITH clause in scope binds the name. -/
def Refers (select : Select) (name : Bytes) : Prop :=
  Found children widen (RefersHere name) (.select select) []

/-- A table is referred to outside the OVER clauses of calls with a star argument. -/
def RefersOutside (select : Select) (name : Bytes) : Prop :=
  Found walked widen (RefersHere name) (.select select) []

/-- A table is referred to in the OVER clause of a call with a star argument. -/
def RefersInStarWindow (select : Select) (name : Bytes) : Prop :=
  Found children widen
    (fun node scope => ∃ w ∈ node.hidden, Found children widen (RefersHere name) w
      (node.widen scope)) (.select select) []

/-- A name of a table, a table function, an IN table or a table star occurs somewhere. -/
def Occurs (select : Select) (name : Name) : Prop :=
  Found children widen (fun node _ => name ∈ node.names) (.select select) []

/-- A name has the reserved prefix. -/
def Reserved (name : Name) : Prop :=
  ∃ found, identifier name = .ok found ∧ hasMultilitePrefix found.value = true

/-- A list has the canonical names of the tables a SELECT refers to, each once. -/
structure Exact (select : Select) (dependencies : List SqlName) : Prop where
  once : (dependencies.map SqlName.canonical).Nodup
  names : ∀ name, name ∈ dependencies.map SqlName.canonical ↔ Refers select name

theorem refers_iff (select : Select) (name : Bytes) :
    Refers select name ↔ RefersOutside select name ∨ RefersInStarWindow select name :=
  found_iff_walked_or_hidden mem_children_iff

theorem canonical_values {dependencies : Dependencies} (hkeyed : Keyed dependencies) :
    dependencies.values.map SqlName.canonical = dependencies.entries.map Prod.fst := by
  rw [OrdMap.values, map_map]
  refine map_congr_left fun entry hentry => ?_
  exact hkeyed entry.1 entry.2 (OrdMap.mem_entries_iff.mp hentry)

/-- The collector finds the tables referred to outside the OVER clauses of star calls. -/
theorem collectViewDependencies_spec {select : Select} {dependencies : List SqlName}
    (h : collectViewDependencies select = .ok dependencies) :
    (dependencies.map SqlName.canonical).Nodup ∧
      ∀ name, name ∈ dependencies.map SqlName.canonical ↔ RefersOutside select name := by
  rw [collectViewDependencies] at h
  obtain ⟨found, hfound, h⟩ := of_bind h
  split at h
  · cases h
  cases h
  have hsize : ∀ node : Node, ∀ c ∈ node.walked, c.size < node.size := fun node c hc =>
    size_children node c ((mem_children_iff node c).mpr (.inl hc))
  have hwalk : Node.collect (.select select) [] OrdMap.empty = .ok found := hfound
  have hnone : Keyed OrdMap.empty := by
    intro name found hget
    cases hget
  have hkeyed : Keyed found := walk_invariant hsize collect_eq collectHere_keyed hnone hwalk
  have hcollected := walk_collects hsize collect_eq collectHere_collects hwalk
  rw [canonical_values hkeyed]
  refine ⟨(pairwise_map.mpr found.sorted).imp ne_of_lt, fun name => ?_⟩
  have hmem : name ∈ found.entries.map Prod.fst ↔ Collected found name := by
    rw [mem_map, Collected, Option.isSome_iff_exists]
    constructor
    · rintro ⟨entry, hentry, rfl⟩
      exact ⟨entry.2, OrdMap.mem_entries_iff.mp hentry⟩
    · rintro ⟨value, hget⟩
      exact ⟨(name, value), OrdMap.mem_entries_iff.mpr hget, rfl⟩
  have hempty : ¬ Collected (OrdMap.empty : Dependencies) name := nofun
  rw [hmem, hcollected name, or_iff_right hempty]
  rfl

theorem validateCreateView_eq_ok {statement : CreateView} {spec : CreateViewSpec}
    (h : validateCreateView statement = .ok spec) :
    collectViewDependencies statement.select = .ok spec.dependencies := by
  rw [validateCreateView] at h
  split at h
  · cases h
  split at h
  · cases h
  obtain ⟨name, -, h⟩ := of_bind h
  obtain ⟨-, -, h⟩ := of_bind h
  split at h
  · cases h
  obtain ⟨dependencies, hdependencies, h⟩ := of_bind h
  cases h
  exact hdependencies

theorem nameReadsReserved_iff (name : Name) :
    nameReadsReserved name = true ↔ Reserved name ∨ ∃ error, identifier name = .error error := by
  rw [nameReadsReserved, Reserved, identifier]
  cases SqlName.fromSqliteToken name <;> simp

/-- The test finds the names with the reserved prefix and those that are no identifier. -/
theorem selectReadsReserved_iff (select : Select) : selectReadsReserved select = true ↔
    ∃ name, Occurs select name ∧ nameReadsReserved name = true := by
  have hiff : _ ↔ Found _ widen _ (.select select) [] :=
    test_iff_found size_children reads_iff (.select select) []
  rw [reads] at hiff
  rw [hiff, found_exists_iff]
  exact exists_congr fun name => found_and_iff

/-- Dependencies of views.  A view that is accepted depends on exactly the tables its SELECT refers
to, each once, just when every table that is referred to in the OVER clause of a call with a star
argument is also referred to elsewhere.  A SELECT is found to read the reserved namespace just when a
name in it has the reserved prefix, unless one is no identifier and none has the prefix. -/
theorem view_dependencies {statement : CreateView} {spec : CreateViewSpec}
    (h : validateCreateView statement = .ok spec) :
    (Exact statement.select spec.dependencies ↔
      ∀ name, RefersInStarWindow statement.select name → RefersOutside statement.select name) ∧
    ∀ select,
      ((selectReadsReserved select = true ↔ ∃ name, Occurs select name ∧ Reserved name) ↔
        ((∃ name error, Occurs select name ∧ identifier name = .error error) →
          ∃ name, Occurs select name ∧ Reserved name)) := by
  obtain ⟨honce, hnames⟩ := collectViewDependencies_spec (validateCreateView_eq_ok h)
  refine ⟨⟨fun hexact name hhidden => ?_, fun hvisible => ⟨honce, fun name => ?_⟩⟩,
    fun select => ?_⟩
  · exact (hnames name).mp ((hexact.names name).mpr ((refers_iff _ _).mpr (.inr hhidden)))
  · rw [hnames name, refers_iff]
    exact ⟨.inl, fun hrefers => hrefers.elim id (hvisible name)⟩
  · have hsplit : selectReadsReserved select = true ↔
        (∃ name, Occurs select name ∧ Reserved name) ∨
          ∃ name error, Occurs select name ∧ identifier name = .error error := by
      rw [selectReadsReserved_iff]
      simp only [nameReadsReserved_iff, and_or_left, exists_or, exists_and_left]
    rw [hsplit, or_iff_left_iff_imp]

/-! ## A view with a hidden table -/

namespace CountOver

/-- `FROM`, of one table. -/
def fromTable (name : Name) : FromClause Expr SelectTable :=
  ⟨some (.table ⟨none, name, none⟩ false), []⟩

def bodyFrom (columns : List (ResultColumn Expr)) (name : Name) : OneSelect :=
  .select columns (some (fromTable name)) none [] none []

/-- A SELECT of some columns from a table. -/
def selectFrom (columns : List (ResultColumn Expr)) (name : Name) : Select :=
  .mk [] (bodyFrom columns name) [] [] none

/-- `count(*) OVER (PARTITION BY (SELECT * FROM s))`. -/
def countOver : Expr :=
  .functionCallStar (some ⟨none, some (.window ⟨[.subquery (selectFrom [.star] [0x73])], [], none⟩)⟩)

/-- `CREATE VIEW v AS SELECT count(*) OVER (PARTITION BY (SELECT * FROM s)) FROM t`. -/
def counting : CreateView :=
  ⟨false, false, ⟨none, [0x76], none⟩, selectFrom [.expr countOver] [0x74]⟩

/-- `CREATE VIEW v AS WITH c AS (SELECT * FROM s)`
`SELECT count(*) OVER (PARTITION BY (SELECT * FROM s)), (SELECT * FROM t) FROM c`. -/
def nested : CreateView :=
  ⟨false, false, ⟨none, [0x76], none⟩, .mk [⟨[0x63], selectFrom [.star] [0x73]⟩]
    (bodyFrom [.expr countOver, .expr (.subquery (selectFrom [.star] [0x74]))] [0x63]) [] [] none⟩

theorem accepted : validateCreateView counting = .ok ⟨.new [0x76], [.new [0x74]]⟩ ∧
    validateCreateView nested = .ok ⟨.new [0x76], [.new [0x73], .new [0x74]]⟩ := by
  refine ⟨?_, ?_⟩ <;>
    simp [validateCreateView, counting, nested, countOver, selectFrom, bodyFrom, fromTable,
      selectReadsReserved, oneSelectReadsReserved, resultColumnReadsReserved, fromReadsReserved,
      selectTableReadsReserved, expressionReadsReserved, functionTailReadsReserved,
      windowReadsReserved, collectViewDependencies, collectSelectDependencies,
      collectOneSelectDependencies, collectColumnDependencies, collectFromDependencies,
      collectTableDependencies, collectExpressionDependencies] <;>
    decide +kernel

theorem canonicalOf_s : canonicalOf [0x73] = some [0x73] := by decide +kernel

/-- The table in the OVER clause; the second view reads it in its WITH clause as well. -/
theorem hides_iff {name : Bytes} :
    (RefersInStarWindow counting.select name ↔ [0x73] = name) ∧
      (RefersInStarWindow nested.select name ↔ [0x73] = name ∧ canonicalOf [0x63] ≠ some name) := by
  refine ⟨?_, ?_⟩ <;>
    simp [RefersInStarWindow, found_iff (n := Node.select _), found_iff (n := Node.oneSelect _),
      found_iff (n := Node.column _), found_iff (n := Node.expr _), found_iff (n := Node.window _),
      found_iff (n := Node.fromClause _), found_iff (n := Node.table _), children, walked,
      Node.hidden, widen, ofFilter, ofTail, ofOver, RefersHere, reference, counting, nested,
      countOver, selectFrom, bodyFrom, fromTable, canonicalOf_s]

theorem view_dependencies_nested :
    validateCreateView nested = .ok ⟨.new [0x76], [.new [0x73], .new [0x74]]⟩ ∧
      Exact nested.select [.new [0x73], .new [0x74]] := by
  refine ⟨accepted.2, (view_dependencies accepted.2).1.mpr fun name hhidden => ?_⟩
  -- the WITH clause reads the table as well
  obtain ⟨-, houtside⟩ := collectViewDependencies_spec (validateCreateView_eq_ok accepted.2)
  rw [← houtside, ← (hides_iff.2.mp hhidden).1]
  decide +kernel

/-- The view is accepted with `t` as its only dependency, and it reads `s` as well. -/
theorem star_window_dependency_missed :
    validateCreateView counting = .ok ⟨.new [0x76], [.new [0x74]]⟩ ∧
      Refers counting.select [0x73] ∧ ¬ Exact counting.select [.new [0x74]] := by
  have hrefers : Refers counting.select [0x73] := (refers_iff _ _).mpr (.inr (hides_iff.1.mpr rfl))
  refine ⟨accepted.1, hrefers, fun hexact => ?_⟩
  have hmem := (hexact.names [0x73]).mpr hrefers
  exact absurd hmem (by decide +kernel)

end CountOver

end Homebase.Multilite.Sql
