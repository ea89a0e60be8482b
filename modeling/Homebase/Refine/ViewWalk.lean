import Homebase.Multilite.ViewSql

set_option autoImplicit false

/-!
# Refinement: the walkers of a SELECT, one node at a time

The parts of a SELECT are nodes, and `children` lists every place below a node, whether or not a walker
goes there.  The collector of dependencies goes everywhere except into the OVER clause of a call with
a star argument (`hidden`); the test for reserved names goes everywhere.
-/

namespace Homebase.Multilite.Sql

open Foundation List

/-! ## Nodes -/

/-- A part of a SELECT. -/
inductive Node where
  | expr (expr : Expr)
  | select (select : Select)
  | oneSelect (select : OneSelect)
  | column (column : ResultColumn Expr)
  | table (table : SelectTable)
  | fromClause (clause : FromClause Expr SelectTable)
  | constraint (join : JoinedSelectTable Expr SelectTable)
  | window (window : Window Expr)
  | bound (bound : FrameBound Expr)

namespace Node

/-- The size of a node, that of its syntax tree. -/
@[simp] noncomputable def size : Node → Nat
  | expr e => sizeOf e
  | select s => sizeOf s
  | oneSelect s => sizeOf s
  | column c => sizeOf c
  | table t => sizeOf t
  | fromClause c => sizeOf c
  | constraint j => sizeOf j
  | window w => sizeOf w
  | bound b => sizeOf b

/-- The window of an OVER clause, where it defines one. -/
def ofOver : Option (Over Expr) → List Node
  | some (.window w) => [window w]
  | some (.name _) => []
  | none => []

/-- The FILTER clause of a call. -/
def ofFilter : Option (FunctionTail Expr) → List Node
  | some tail => tail.filterClause.toList.map expr
  | none => []

/-- The window of the OVER clause of a call. -/
def ofTail : Option (FunctionTail Expr) → List Node
  | some tail => ofOver tail.overClause
  | none => []

/-- The places below a node, without the OVER clause of a call with a star argument. -/
def walked : Node → List Node
  | expr (.between lhs start finish) => [expr lhs, expr start, expr finish]
  | expr (.binary left right) => [expr left, expr right]
  | expr (.caseWhen base pairs elseExpr) =>
      base.toList.map expr ++ elseExpr.toList.map expr ++
        pairs.flatMap fun pair => [expr pair.1, expr pair.2]
  | expr (.cast e) | expr (.collate e) | expr (.isNull e) | expr (.notNull e) | expr (.unary e) =>
      [expr e]
  | expr (.existsIn s) | expr (.subquery s) => [select s]
  | expr (.functionCall args orderBy filterOver) =>
      args.map expr ++ orderBy.map expr ++ ofFilter filterOver ++ ofTail filterOver
  | expr (.functionCallStar filterOver) => ofFilter filterOver
  | expr (.inList lhs rhs) => expr lhs :: rhs.map expr
  | expr (.inSelect lhs rhs) => [expr lhs, select rhs]
  | expr (.inTable lhs _ args) => expr lhs :: (args.getD []).map expr
  | expr (.like lhs rhs escape) => expr lhs :: expr rhs :: escape.toList.map expr
  | expr (.parenthesized expressions) => expressions.map expr
  | expr (.raise e) => e.toList.map expr
  | expr (.doublyQualified ..) | expr (.id _) | expr .literal | expr (.name _)
  | expr (.qualified ..) | expr .variableName => []
  | select (.mk ctes body compounds orderBy limit) =>
      ctes.map (fun cte => select cte.select) ++ oneSelect body :: compounds.map oneSelect ++
        orderBy.map expr ++
        match limit with
        | none => []
        | some limit => expr limit.expr :: limit.offset.toList.map expr
  | oneSelect (.select columns clause whereClause groupBy having windowClause) =>
      columns.map column ++ clause.toList.map fromClause ++ whereClause.toList.map expr ++
        having.toList.map expr ++ groupBy.map expr ++ windowClause.map window
  | oneSelect (.values rows) => rows.flatMap fun row => row.map expr
  | column (.expr e) => [expr e]
  | column .star | column (.tableStar _) => []
  | table (.table ..) => []
  | table (.tableCall _ args) => args.map expr
  | table (.select s) => [select s]
  | table (.sub clause) => [fromClause clause]
  | fromClause ⟨first, joins⟩ =>
      first.toList.map table ++ joins.map (fun join => table join.table) ++ joins.map constraint
  | constraint ⟨_, some (.on e)⟩ => [expr e]
  | constraint ⟨_, some (.using _)⟩ | constraint ⟨_, none⟩ => []
  | window ⟨partitionBy, orderBy, frameClause⟩ =>
      partitionBy.map expr ++ orderBy.map expr ++
        match frameClause with
        | none => []
        | some frame => bound frame.start :: frame.finish.toList.map bound
  | bound (.following e) | bound (.preceding e) => [expr e]
  | bound .currentRow | bound .unboundedFollowing | bound .unboundedPreceding => []

/-- The window of the OVER clause of a call with a star argument. -/
def hidden : Node → List Node
  | expr (.functionCallStar filterOver) => ofTail filterOver
  | _ => []

/-- Every place below a node. -/
def children (node : Node) : List Node := node.walked ++ node.hidden

/-- The canonical name of a token. -/
def canonicalOf (name : Name) : Option Bytes := (identifier name).toOption.map SqlName.canonical

/-- The names that are bound below a node: a WITH clause binds its names in all its SELECT. -/
def widen : Node → List Bytes → List Bytes
  | select (.mk ctes _ _ _ _), scope => scope ++ ctes.filterMap fun cte => canonicalOf cte.tblName
  | _, scope => scope

variable {c : Node} {filterOver : Option (FunctionTail Expr)}

@[grind →] theorem size_ofFilter (hc : c ∈ ofFilter filterOver) : c.size < sizeOf filterOver := by
  cases filterOver with
  | none => cases hc
  | some tail =>
    obtain ⟨filterClause, overClause⟩ := tail
    obtain ⟨e, he, rfl⟩ := mem_map.mp hc
    have h : sizeOf e < sizeOf filterClause := sizeOf_lt_of_mem_toList he
    simp only [size, Option.some.sizeOf_spec, FunctionTail.mk.sizeOf_spec]
    omega

@[grind →] theorem size_ofTail (hc : c ∈ ofTail filterOver) : c.size < sizeOf filterOver := by
  cases filterOver with
  | none => cases hc
  | some tail =>
    obtain ⟨filterClause, _ | ⟨w⟩ | _⟩ := tail
    · cases hc
    · obtain rfl := mem_singleton.mp hc
      simp only [size, Option.some.sizeOf_spec, FunctionTail.mk.sizeOf_spec, Over.window.sizeOf_spec]
      omega
    · cases hc

variable {α : Type} {f : α → Node}

theorem size_of_mem_map [SizeOf α] (hf : ∀ a, (f a).size ≤ sizeOf a) {xs : List α}
    (hc : c ∈ xs.map f) : c.size < sizeOf xs := by
  obtain ⟨a, ha, rfl⟩ := mem_map.mp hc
  exact (hf a).trans_lt (sizeOf_lt_of_mem ha)

theorem size_of_mem_toList [SizeOf α] (hf : ∀ a, (f a).size ≤ sizeOf a) {o : Option α}
    (hc : c ∈ o.toList.map f) : c.size < sizeOf o := by
  obtain ⟨a, ha, rfl⟩ := mem_map.mp hc
  exact (hf a).trans_lt (sizeOf_lt_of_mem_toList ha)

@[grind →] theorem size_exprs {xs : List Expr} (hc : c ∈ xs.map expr) : c.size < sizeOf xs :=
  size_of_mem_map (fun _ => le_refl _) hc

@[grind →] theorem size_optionalExpr {o : Option Expr} (hc : c ∈ o.toList.map expr) :
    c.size < sizeOf o :=
  size_of_mem_toList (fun _ => le_refl _) hc

theorem size_pairs {pairs : List (Expr × Expr)}
    (hc : c ∈ pairs.flatMap fun pair => [expr pair.1, expr pair.2]) : c.size < sizeOf pairs := by
  obtain ⟨⟨when, andThen⟩, hpair, hc⟩ := mem_flatMap.mp hc
  have hlt := sizeOf_lt_of_mem hpair
  rw [Prod.mk.sizeOf_spec] at hlt
  simp only [mem_cons, not_mem_nil, or_false] at hc
  rcases hc with rfl | rfl
  · simp only [size]
    omega
  · simp only [size]
    omega

theorem size_rows {rows : List (List Expr)} (hc : c ∈ rows.flatMap fun row => row.map expr) :
    c.size < sizeOf rows := by
  obtain ⟨row, hrow, hc⟩ := mem_flatMap.mp hc
  exact (size_exprs hc).trans (sizeOf_lt_of_mem hrow)

theorem size_children_expr (e : Expr) (hc : c ∈ (expr e).children) : c.size < (expr e).size := by
  rw [children, mem_append] at hc
  cases e with
  | caseWhen base pairs elseExpr =>
    simp only [walked, hidden, mem_append, not_mem_nil, or_false] at hc
    rw [size, Expr.caseWhen.sizeOf_spec]
    rcases hc with (hc | hc) | hc
    · have := size_optionalExpr hc
      omega
    · have := size_optionalExpr hc
      omega
    · have := size_pairs hc
      omega
  | inTable lhs rhs args =>
    cases args <;>
      simp only [walked, hidden, Option.getD_none, Option.getD_some, map_nil, mem_cons,
        not_mem_nil, or_false] at hc <;>
      grind [size]
  | doublyQualified | id | literal | name | qualified | variableName =>
    simp only [walked, hidden, not_mem_nil, or_self] at hc
  | _ =>
    simp only [walked, hidden, mem_append, mem_cons, not_mem_nil, or_false] at hc
    grind [size]

theorem size_children_select (s : Select) (hc : c ∈ (select s).children) :
    c.size < (select s).size := by
  obtain ⟨ctes, body, compounds, orderBy, limit⟩ := s
  have hcte : ∀ cte : CommonTableExpr Select, (select cte.select).size ≤ sizeOf cte := by
    rintro ⟨name, s⟩
    simp only [size, CommonTableExpr.mk.sizeOf_spec]
    omega
  simp only [children, walked, hidden, mem_append, mem_cons, not_mem_nil,
    or_false] at hc
  rw [size, Select.mk.sizeOf_spec]
  rcases hc with ((hc | rfl | hc) | hc) | hc
  · have := size_of_mem_map hcte hc
    omega
  · rw [size]
    omega
  · have := size_of_mem_map (f := oneSelect) (fun _ => le_refl _) hc
    omega
  · have := size_exprs hc
    omega
  · rcases limit with _ | ⟨e, offset⟩
    · cases hc
    · simp only [Option.some.sizeOf_spec, Limit.mk.sizeOf_spec]
      rcases mem_cons.mp hc with rfl | hc
      · simp only [size]
        omega
      · have : c.size < sizeOf offset := size_optionalExpr hc
        omega

theorem size_children_oneSelect (s : OneSelect) (hc : c ∈ (oneSelect s).children) :
    c.size < (oneSelect s).size := by
  cases s with
  | select columns clause whereClause groupBy having windowClause =>
    simp only [children, walked, hidden, mem_append, not_mem_nil, or_false] at hc
    rw [size, OneSelect.select.sizeOf_spec]
    rcases hc with ((((hc | hc) | hc) | hc) | hc) | hc
    · have := size_of_mem_map (f := column) (fun _ => le_refl _) hc
      omega
    · have := size_of_mem_toList (f := fromClause) (fun _ => le_refl _) hc
      omega
    · have := size_optionalExpr hc
      omega
    · have := size_optionalExpr hc
      omega
    · have := size_exprs hc
      omega
    · have := size_of_mem_map (f := window) (fun _ => le_refl _) hc
      omega
  | values rows =>
    simp only [children, walked, hidden, append_nil] at hc
    have := size_rows hc
    rw [size, OneSelect.values.sizeOf_spec]
    omega

/-- Size falls from a node to its children. -/
theorem size_children (node : Node) : ∀ c ∈ node.children, c.size < node.size := by
  intro c hc
  cases node with
  | expr e => exact size_children_expr e hc
  | select s => exact size_children_select s hc
  | oneSelect s => exact size_children_oneSelect s hc
  | column column =>
    cases column with
    | expr e =>
      obtain rfl := mem_singleton.mp hc
      simp
    | star | tableStar => cases hc
  | table t =>
    cases t with
    | table => cases hc
    | tableCall name args =>
      simp only [children, walked, hidden, append_nil] at hc
      have := size_exprs hc
      rw [size, SelectTable.tableCall.sizeOf_spec]
      omega
    | select s =>
      obtain rfl := mem_singleton.mp hc
      simp
    | sub clause =>
      obtain rfl := mem_singleton.mp hc
      simp
  | fromClause clause =>
    obtain ⟨first, joins⟩ := clause
    have htable : ∀ join : JoinedSelectTable Expr SelectTable,
        (table join.table).size ≤ sizeOf join := by
      rintro ⟨t, constraint⟩
      simp only [size, JoinedSelectTable.mk.sizeOf_spec]
      omega
    simp only [children, walked, hidden, mem_append, not_mem_nil, or_false] at hc
    rw [size, FromClause.mk.sizeOf_spec]
    rcases hc with (hc | hc) | hc
    · have := size_of_mem_toList (f := table) (fun _ => le_refl _) hc
      omega
    · have := size_of_mem_map htable hc
      omega
    · have := size_of_mem_map (f := constraint) (fun _ => le_refl _) hc
      omega
  | constraint join =>
    rcases join with ⟨t, _ | ⟨e⟩ | ⟨columns⟩⟩
    · cases hc
    · obtain rfl := mem_singleton.mp hc
      simp only [size, JoinedSelectTable.mk.sizeOf_spec,
        Option.some.sizeOf_spec, JoinConstraint.on.sizeOf_spec]
      omega
    · cases hc
  | window w =>
    obtain ⟨partitionBy, orderBy, frameClause⟩ := w
    simp only [children, walked, hidden, mem_append, not_mem_nil, or_false] at hc
    rw [size, Window.mk.sizeOf_spec]
    rcases hc with (hc | hc) | hc
    · have := size_exprs hc
      omega
    · have := size_exprs hc
      omega
    · rcases frameClause with _ | ⟨start, finish⟩
      · cases hc
      · simp only [Option.some.sizeOf_spec, FrameClause.mk.sizeOf_spec]
        rcases mem_cons.mp hc with rfl | hc
        · simp only [size]
          omega
        · have : c.size < sizeOf finish := size_of_mem_toList (f := bound) (fun _ => le_refl _) hc
          omega
  | bound b =>
    cases b with
    | following e | preceding e =>
      obtain rfl := mem_singleton.mp hc
      simp
    | currentRow | unboundedFollowing | unboundedPreceding => cases hc

/-! ## The walkers, by node -/

/-- What the collector does at a node itself. -/
def collectHere : Node → List Bytes → Dependencies → Except SqlError Dependencies
  | table (.table name indexed), ctes, dependencies => collectTableName name indexed ctes dependencies
  | table (.tableCall ..), _, _ =>
      .error (.unsupportedSql "table-valued functions in views are not supported")
  | expr (.inTable ..), _, _ =>
      .error (.unsupportedSql "table-valued IN expressions in views are not supported")
  | expr .variableName, _, _ => .error (.unsupportedSql "parameters in views are not supported")
  | select (.mk ctes _ _ _ _), _, dependencies =>
      (ctes.mapM fun cte => identifier cte.tblName) >>= fun _ => .ok dependencies
  | _, _, dependencies => .ok dependencies

/-- The collector at a node. -/
@[simp] def collect : Node → List Bytes → Dependencies → Except SqlError Dependencies
  | expr e => collectExpressionDependencies e
  | select s => collectSelectDependencies s
  | oneSelect s => collectOneSelectDependencies s
  | column c => collectColumnDependencies c
  | table t => collectTableDependencies t
  | fromClause c => collectFromDependencies c
  | constraint j => collectConstraintDependencies j
  | window w => collectWindowDependencies w
  | bound b => collectBoundDependencies b

@[simp] theorem bind_ok {ε : Type} (x : Except ε α) : (x >>= fun a => .ok a) = x := by
  cases x <;> rfl

theorem canonical_of_mapM {ctes : List (CommonTableExpr Select)} {names : List SqlName}
    (h : ctes.mapM (fun cte => identifier cte.tblName) = .ok names) :
    ctes.filterMap (fun cte => canonicalOf cte.tblName) = names.map SqlName.canonical := by
  induction ctes generalizing names with
  | nil =>
    cases h
    rfl
  | cons cte ctes ih =>
    rw [mapM_cons] at h
    obtain ⟨name, hname, h⟩ := of_bind h
    obtain ⟨rest, hrest, h⟩ := of_bind h
    cases h
    rw [filterMap_cons, canonicalOf, hname, ih hrest]
    rfl

/-- The collector at a node does its part there and then walks the places below it. -/
theorem collect_eq (node : Node) (ctes : List Bytes) (dependencies : Dependencies) :
    collect node ctes dependencies = collectHere node ctes dependencies >>= fun d =>
      (walked node).foldlM (fun d c => collect c (widen node ctes) d) d := by
  cases node with
  | expr e =>
    cases e with
    | caseWhen base pairs elseExpr =>
      simp [collectHere, walked, widen, collectExpressionDependencies, foldlM_flatMap,
        List.foldlM_map, foldlM_append]
    | functionCall args orderBy filterOver =>
      rcases filterOver with _ | ⟨filterClause, _ | ⟨w⟩ | ⟨name⟩⟩ <;>
        simp [collectHere, walked, widen, collectExpressionDependencies, ofFilter, ofTail, ofOver,
          List.foldlM_map, foldlM_append]
    | functionCallStar filterOver =>
      rcases filterOver with _ | ⟨filterClause, overClause⟩ <;>
        simp [collectHere, walked, widen, collectExpressionDependencies, ofFilter, List.foldlM_map]
    | _ =>
      simp [collectHere, walked, widen, collectExpressionDependencies, List.foldlM_map]
  | select s =>
    obtain ⟨withCtes, body, compounds, orderBy, limit⟩ := s
    cases hnames : withCtes.mapM fun cte => identifier cte.tblName with
    | error error => simp [collectHere, collectSelectDependencies, hnames]
    | ok names =>
      have hscope := canonical_of_mapM hnames
      rcases limit with _ | ⟨e, offset⟩ <;>
        simp [collectHere, walked, widen, collectSelectDependencies, hnames, hscope,
          List.foldlM_map, foldlM_append]
  | oneSelect s =>
    cases s with
    | select columns clause whereClause groupBy having windowClause =>
      simp [collectHere, walked, widen, collectOneSelectDependencies, List.foldlM_map,
        foldlM_append]
    | values rows =>
      simp [collectHere, walked, widen, collectOneSelectDependencies, foldlM_flatMap,
        List.foldlM_map]
  | column c => cases c <;> simp [collectHere, walked, widen, collectColumnDependencies]
  | table t => cases t <;> simp [collectHere, walked, widen, collectTableDependencies]
  | fromClause c =>
    obtain ⟨first, joins⟩ := c
    simp [collectHere, walked, widen, collectFromDependencies, List.foldlM_map, foldlM_append]
  | constraint j =>
    rcases j with ⟨t, _ | ⟨e⟩ | ⟨columns⟩⟩ <;>
      simp [collectHere, walked, widen, collectConstraintDependencies]
  | window w =>
    rcases w with ⟨partitionBy, orderBy, _ | ⟨start, finish⟩⟩ <;>
      simp [collectHere, walked, widen, collectWindowDependencies, List.foldlM_map,
        foldlM_append]
  | bound b => cases b <;> simp [collectHere, walked, widen, collectBoundDependencies]

/-- The test for reserved names at a node. -/
@[simp] def reads : Node → Bool
  | expr e => expressionReadsReserved e
  | select s => selectReadsReserved s
  | oneSelect s => oneSelectReadsReserved s
  | column c => resultColumnReadsReserved c
  | table t => selectTableReadsReserved t
  | fromClause c => fromReadsReserved c
  | constraint ⟨_, some (.on e)⟩ => expressionReadsReserved e
  | constraint ⟨_, some (.using _)⟩ | constraint ⟨_, none⟩ => false
  | window w => windowReadsReserved w
  | bound b => frameBoundReadsReserved b

/-- The names of tables, table functions, IN tables and table stars at a node. -/
def names : Node → List Name
  | table (.table name _) | table (.tableCall name _) => [name.name]
  | expr (.inTable _ rhs _) => [rhs.name]
  | column (.tableStar name) => [name]
  | _ => []

theorem joinReadsReserved_eq (join : JoinedSelectTable Expr SelectTable) :
    joinReadsReserved join = (selectTableReadsReserved join.table || reads (constraint join)) := by
  rcases join with ⟨t, _ | ⟨e⟩ | ⟨columns⟩⟩ <;> simp [joinReadsReserved, reads]

theorem functionTail_iff (filterOver : Option (FunctionTail Expr)) :
    (∃ tail, filterOver = some tail ∧ functionTailReadsReserved tail = true) ↔
      ∃ c ∈ ofFilter filterOver ++ ofTail filterOver, reads c = true := by
  rcases filterOver with _ | ⟨filterClause, _ | ⟨w⟩ | ⟨name⟩⟩ <;>
    simp [ofFilter, ofTail, ofOver, functionTailReadsReserved]

/-- The test at a node looks at the names there and then at every place below it. -/
theorem reads_iff (node : Node) : reads node = true ↔
    (∃ name ∈ names node, nameReadsReserved name = true) ∨
      ∃ c ∈ children node, reads c = true := by
  rw [children]
  cases node with
  | expr e =>
    cases e with
    | caseWhen base pairs elseExpr =>
      have hpairs : (∃ c ∈ pairs.flatMap fun pair => [expr pair.1, expr pair.2], reads c = true) ↔
          ∃ pair ∈ pairs, expressionReadsReserved pair.1 = true ∨
            expressionReadsReserved pair.2 = true := by
        simp only [mem_flatMap, mem_cons, not_mem_nil, or_false]
        constructor
        · rintro ⟨c, ⟨pair, hpair, rfl | rfl⟩, hreads⟩
          · exact ⟨pair, hpair, .inl hreads⟩
          · exact ⟨pair, hpair, .inr hreads⟩
        · rintro ⟨pair, hpair, hreads | hreads⟩
          · exact ⟨_, ⟨pair, hpair, .inl rfl⟩, hreads⟩
          · exact ⟨_, ⟨pair, hpair, .inr rfl⟩, hreads⟩
      simp only [walked, hidden, append_nil, mem_append, or_and_right, exists_or, hpairs]
      simp [names, expressionReadsReserved, or_comm, or_left_comm, or_assoc]
    | functionCall args orderBy filterOver =>
      have htail := functionTail_iff filterOver
      simp only [mem_append, or_and_right, exists_or] at htail
      simp [names, walked, hidden, expressionReadsReserved, or_and_right, exists_or, htail, or_assoc]
    | functionCallStar filterOver =>
      have htail := functionTail_iff filterOver
      simpa [names, walked, hidden, expressionReadsReserved] using htail
    | inTable lhs rhs args =>
      cases args <;>
        simp [names, walked, hidden, expressionReadsReserved, or_comm, or_left_comm, or_assoc]
    | _ => simp [names, walked, hidden, expressionReadsReserved, or_assoc]
  | select s =>
    obtain ⟨withCtes, body, compounds, orderBy, limit⟩ := s
    rcases limit with _ | ⟨e, offset⟩ <;>
      simp [names, walked, hidden, selectReadsReserved, or_and_right, exists_or, or_assoc]
  | oneSelect s =>
    cases s with
    | select columns clause whereClause groupBy having windowClause =>
      simp [names, walked, hidden, oneSelectReadsReserved, or_and_right, exists_or, or_comm,
        or_left_comm, or_assoc]
    | values rows =>
      simp [names, walked, hidden, oneSelectReadsReserved, and_assoc]
  | column c => cases c <;> simp [names, walked, hidden, resultColumnReadsReserved]
  | table t =>
    cases t with
    | sub clause =>
      obtain ⟨first, joins⟩ := clause
      simp [names, walked, hidden, selectTableReadsReserved, fromReadsReserved]
    | _ => simp [names, walked, hidden, selectTableReadsReserved]
  | fromClause c =>
    obtain ⟨first, joins⟩ := c
    simp [names, walked, hidden, fromReadsReserved, joinReadsReserved_eq, or_and_right, and_or_left,
      exists_or]
  | constraint j =>
    rcases j with ⟨t, _ | ⟨e⟩ | ⟨columns⟩⟩ <;> simp [names, walked, hidden, reads]
  | window w =>
    rcases w with ⟨partitionBy, orderBy, _ | ⟨start, finish⟩⟩ <;>
      simp [names, walked, hidden, windowReadsReserved, or_and_right, exists_or, or_assoc]
  | bound b => cases b <;> simp [names, walked, hidden, frameBoundReadsReserved]

end Node

end Homebase.Multilite.Sql
