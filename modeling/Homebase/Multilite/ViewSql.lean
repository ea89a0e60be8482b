import Homebase.Foundation.OrdMap
import Homebase.Foundation.Walk
import Homebase.Multilite.SqlTree

set_option autoImplicit false

/-!
# Multilite: the dependencies of a view (`sql.rs`)

Two walkers go over a SELECT: one looks for names of the reserved namespace, the other collects the
tables a view depends on, with the names of the WITH clauses in scope on a stack.
-/

namespace Homebase.Multilite.Sql

open Foundation List

/-! ## Names of the reserved namespace -/

attribute [grind →] sizeOf_lt_of_mem_toList sizeOf_lt_of_mem

mutual

/-- `expression_reads_reserved`. -/
def expressionReadsReserved : Expr → Bool
  | .between lhs start finish =>
      expressionReadsReserved lhs || expressionReadsReserved start || expressionReadsReserved finish
  | .binary left right => expressionReadsReserved left || expressionReadsReserved right
  | .caseWhen base pairs elseExpr =>
      anyOf base.toList (fun e _ => expressionReadsReserved e) ||
        anyOf pairs (fun ⟨when, andThen⟩ _ =>
          expressionReadsReserved when || expressionReadsReserved andThen) ||
        anyOf elseExpr.toList (fun e _ => expressionReadsReserved e)
  | .cast expr | .collate expr | .isNull expr | .notNull expr | .unary expr =>
      expressionReadsReserved expr
  | .existsIn select | .subquery select => selectReadsReserved select
  | .functionCall args orderBy filterOver =>
      anyOf args (fun e _ => expressionReadsReserved e) ||
        anyOf orderBy (fun e _ => expressionReadsReserved e) ||
        anyOf filterOver.toList (fun tail _ => functionTailReadsReserved tail)
  | .functionCallStar filterOver =>
      anyOf filterOver.toList (fun tail _ => functionTailReadsReserved tail)
  | .inList lhs rhs =>
      expressionReadsReserved lhs || anyOf rhs (fun e _ => expressionReadsReserved e)
  | .inSelect lhs rhs => expressionReadsReserved lhs || selectReadsReserved rhs
  | .inTable lhs rhs args =>
      expressionReadsReserved lhs || nameReadsReserved rhs.name ||
        match args with
        | none => false
        | some args => anyOf args (fun e _ => expressionReadsReserved e)
  | .like lhs rhs escape =>
      expressionReadsReserved lhs || expressionReadsReserved rhs ||
        anyOf escape.toList (fun e _ => expressionReadsReserved e)
  | .parenthesized expressions => anyOf expressions (fun e _ => expressionReadsReserved e)
  | .raise expr => anyOf expr.toList (fun e _ => expressionReadsReserved e)
  | .doublyQualified .. | .id _ | .literal | .name _ | .qualified .. | .variableName => false
termination_by e => sizeOf e
decreasing_by
  all_goals simp_wf
  all_goals grind

/-- `function_tail_reads_reserved`. -/
def functionTailReadsReserved : FunctionTail Expr → Bool
  | ⟨filterClause, overClause⟩ =>
      anyOf filterClause.toList (fun e _ => expressionReadsReserved e) ||
        match overClause with
        | some (.window window) => windowReadsReserved window
        | some (.name _) => false
        | none => false
termination_by tail => sizeOf tail
decreasing_by
  all_goals simp_wf
  all_goals grind

/-- `window_reads_reserved`. -/
def windowReadsReserved : Window Expr → Bool
  | ⟨partitionBy, orderBy, frameClause⟩ =>
      anyOf partitionBy (fun e _ => expressionReadsReserved e) ||
        anyOf orderBy (fun e _ => expressionReadsReserved e) ||
        match frameClause with
        | none => false
        | some ⟨start, finish⟩ =>
            frameBoundReadsReserved start ||
              anyOf finish.toList (fun bound _ => frameBoundReadsReserved bound)
termination_by window => sizeOf window
decreasing_by
  all_goals simp_wf
  all_goals grind

/-- `frame_bound_reads_reserved`. -/
def frameBoundReadsReserved : FrameBound Expr → Bool
  | .following expr | .preceding expr => expressionReadsReserved expr
  | .currentRow | .unboundedFollowing | .unboundedPreceding => false
termination_by bound => sizeOf bound

/-- `select_reads_reserved`, with `with_reads_reserved`. -/
def selectReadsReserved : Select → Bool
  | .mk ctes body compounds orderBy limit =>
      anyOf ctes (fun ⟨_, select⟩ _ => selectReadsReserved select) ||
        oneSelectReadsReserved body ||
        anyOf compounds (fun compound _ => oneSelectReadsReserved compound) ||
        anyOf orderBy (fun e _ => expressionReadsReserved e) ||
        match limit with
        | none => false
        | some ⟨expr, offset⟩ =>
            expressionReadsReserved expr ||
              anyOf offset.toList (fun e _ => expressionReadsReserved e)
termination_by select => sizeOf select
decreasing_by
  all_goals simp_wf
  all_goals grind

/-- `one_select_reads_reserved`. -/
def oneSelectReadsReserved : OneSelect → Bool
  | .select columns fromClause whereClause groupBy having windowClause =>
      anyOf columns (fun column _ => resultColumnReadsReserved column) ||
        anyOf fromClause.toList (fun clause _ => fromReadsReserved clause) ||
        anyOf whereClause.toList (fun e _ => expressionReadsReserved e) ||
        anyOf groupBy (fun e _ => expressionReadsReserved e) ||
        anyOf having.toList (fun e _ => expressionReadsReserved e) ||
        anyOf windowClause (fun window _ => windowReadsReserved window)
  | .values rows => anyOf rows (fun row _hrow => anyOf row (fun e _ => expressionReadsReserved e))
termination_by select => sizeOf select
decreasing_by
  all_goals simp_wf
  all_goals grind

/-- `result_column_reads_reserved`. -/
def resultColumnReadsReserved : ResultColumn Expr → Bool
  | .expr expr => expressionReadsReserved expr
  | .tableStar name => nameReadsReserved name
  | .star => false
termination_by column => sizeOf column

/-- `from_reads_reserved`. -/
def fromReadsReserved : FromClause Expr SelectTable → Bool
  | ⟨select, joins⟩ =>
      anyOf select.toList (fun table _ => selectTableReadsReserved table) ||
        anyOf joins (fun join _ => joinReadsReserved join)
termination_by clause => sizeOf clause
decreasing_by
  all_goals simp_wf
  all_goals grind

/-- The test of one join of a FROM clause. -/
def joinReadsReserved : JoinedSelectTable Expr SelectTable → Bool
  | ⟨table, constraint⟩ =>
      selectTableReadsReserved table ||
        match constraint with
        | some (.on expr) => expressionReadsReserved expr
        | some (.using _) => false
        | none => false
termination_by join => sizeOf join

/-- `select_table_reads_reserved`. -/
def selectTableReadsReserved : SelectTable → Bool
  | .table name _ => nameReadsReserved name.name
  | .tableCall name args =>
      nameReadsReserved name.name || anyOf args (fun e _ => expressionReadsReserved e)
  | .select select => selectReadsReserved select
  | .sub ⟨select, joins⟩ =>
      anyOf select.toList (fun table _ => selectTableReadsReserved table) ||
        anyOf joins (fun join _ => joinReadsReserved join)
termination_by table => sizeOf table
decreasing_by
  all_goals simp_wf
  all_goals grind

end

/-! ## Dependencies -/

/-- The dependencies found so far, by canonical name. -/
abbrev Dependencies : Type := OrdMap Bytes SqlName

/-- The branch of `collect_table_dependencies` on a table name. -/
def collectTableName (name : QualifiedName) (indexed : Bool) (ctes : List Bytes)
    (dependencies : Dependencies) : Except SqlError Dependencies := do
  if indexed then
    .error (.unsupportedSql "index hints in views are not supported")
  else if name.dbName.isSome then
    .error (.unsupportedSql "qualified view sources are not supported")
  else
    let name ← identifier name.name
    if ctes.contains name.canonical then .ok dependencies
    else do
      rejectReservedSchemaName name
        "reserved SQLite and Multilite schema names are not supported"
      .ok (dependencies.insert name.canonical name)

mutual

/-- `collect_select_dependencies`. -/
def collectSelectDependencies : Select → List Bytes → Dependencies → Except SqlError Dependencies
  | .mk withCtes body compounds orderBy limit, ctes, dependencies => do
      let names ← withCtes.mapM fun cte => identifier cte.tblName
      let ctes := ctes ++ names.map SqlName.canonical
      let dependencies ← eachOf withCtes
        (fun ⟨_, select⟩ _ => collectSelectDependencies select ctes) dependencies
      let dependencies ← collectOneSelectDependencies body ctes dependencies
      let dependencies ← eachOf compounds
        (fun compound _ => collectOneSelectDependencies compound ctes) dependencies
      let dependencies ← eachOf orderBy
        (fun e _ => collectExpressionDependencies e ctes) dependencies
      match limit with
      | none => .ok dependencies
      | some ⟨expr, offset⟩ => do
          let dependencies ← collectExpressionDependencies expr ctes dependencies
          eachOf offset.toList (fun e _ => collectExpressionDependencies e ctes) dependencies
termination_by select => sizeOf select
decreasing_by
  all_goals simp_wf
  all_goals grind

/-- `collect_one_select_dependencies`. -/
def collectOneSelectDependencies :
    OneSelect → List Bytes → Dependencies → Except SqlError Dependencies
  | .select columns fromClause whereClause groupBy having windowClause, ctes, dependencies => do
      let dependencies ← eachOf columns
        (fun column _ => collectColumnDependencies column ctes) dependencies
      let dependencies ← eachOf fromClause.toList
        (fun clause _ => collectFromDependencies clause ctes) dependencies
      let dependencies ← eachOf whereClause.toList
        (fun e _ => collectExpressionDependencies e ctes) dependencies
      let dependencies ← eachOf having.toList
        (fun e _ => collectExpressionDependencies e ctes) dependencies
      let dependencies ← eachOf groupBy
        (fun e _ => collectExpressionDependencies e ctes) dependencies
      eachOf windowClause (fun window _ => collectWindowDependencies window ctes) dependencies
  | .values rows, ctes, dependencies =>
      eachOf rows (fun row _hrow =>
        eachOf row fun e _ => collectExpressionDependencies e ctes) dependencies
termination_by select => sizeOf select
decreasing_by
  all_goals simp_wf
  all_goals grind

/-- The loop body of `collect_one_select_dependencies` on a result column. -/
def collectColumnDependencies :
    ResultColumn Expr → List Bytes → Dependencies → Except SqlError Dependencies
  | .expr expr, ctes, dependencies => collectExpressionDependencies expr ctes dependencies
  | .star, _, dependencies => .ok dependencies
  | .tableStar _, _, dependencies => .ok dependencies
termination_by column => sizeOf column

/-- `collect_from_dependencies`. -/
def collectFromDependencies :
    FromClause Expr SelectTable → List Bytes → Dependencies → Except SqlError Dependencies
  | ⟨select, joins⟩, ctes, dependencies => do
      let dependencies ← eachOf select.toList
        (fun table _ => collectTableDependencies table ctes) dependencies
      let dependencies ← eachOf joins
        (fun ⟨table, _⟩ _ => collectTableDependencies table ctes) dependencies
      eachOf joins (fun join _ => collectConstraintDependencies join ctes) dependencies
termination_by clause => sizeOf clause
decreasing_by
  all_goals simp_wf
  all_goals grind

/-- The loop body of `collect_from_dependencies` on the constraint of a join. -/
def collectConstraintDependencies :
    JoinedSelectTable Expr SelectTable → List Bytes → Dependencies → Except SqlError Dependencies
  | ⟨_, some (.on expr)⟩, ctes, dependencies => collectExpressionDependencies expr ctes dependencies
  | ⟨_, some (.using _)⟩, _, dependencies => .ok dependencies
  | ⟨_, none⟩, _, dependencies => .ok dependencies
termination_by join => sizeOf join

/-- `collect_table_dependencies`. -/
def collectTableDependencies :
    SelectTable → List Bytes → Dependencies → Except SqlError Dependencies
  | .table name indexed, ctes, dependencies => collectTableName name indexed ctes dependencies
  | .select select, ctes, dependencies => collectSelectDependencies select ctes dependencies
  | .sub clause, ctes, dependencies => collectFromDependencies clause ctes dependencies
  | .tableCall .., _, _ =>
      .error (.unsupportedSql "table-valued functions in views are not supported")
termination_by table => sizeOf table

/-- `collect_expression_dependencies`.  A call with a star argument has its FILTER clause walked and
not its OVER clause. -/
def collectExpressionDependencies :
    Expr → List Bytes → Dependencies → Except SqlError Dependencies
  | .between lhs start finish, ctes, dependencies => do
      let dependencies ← collectExpressionDependencies lhs ctes dependencies
      let dependencies ← collectExpressionDependencies start ctes dependencies
      collectExpressionDependencies finish ctes dependencies
  | .binary left right, ctes, dependencies => do
      let dependencies ← collectExpressionDependencies left ctes dependencies
      collectExpressionDependencies right ctes dependencies
  | .caseWhen base pairs elseExpr, ctes, dependencies => do
      let dependencies ← eachOf base.toList
        (fun e _ => collectExpressionDependencies e ctes) dependencies
      let dependencies ← eachOf elseExpr.toList
        (fun e _ => collectExpressionDependencies e ctes) dependencies
      eachOf pairs (fun ⟨when, andThen⟩ _ dependencies => do
        let dependencies ← collectExpressionDependencies when ctes dependencies
        collectExpressionDependencies andThen ctes dependencies) dependencies
  | .cast expr, ctes, dependencies | .collate expr, ctes, dependencies
  | .isNull expr, ctes, dependencies | .notNull expr, ctes, dependencies
  | .unary expr, ctes, dependencies => collectExpressionDependencies expr ctes dependencies
  | .existsIn select, ctes, dependencies | .subquery select, ctes, dependencies =>
      collectSelectDependencies select ctes dependencies
  | .functionCall args orderBy filterOver, ctes, dependencies => do
      let dependencies ← eachOf args
        (fun e _ => collectExpressionDependencies e ctes) dependencies
      let dependencies ← eachOf orderBy
        (fun e _ => collectExpressionDependencies e ctes) dependencies
      match filterOver with
      | none => .ok dependencies
      | some ⟨filterClause, overClause⟩ => do
          let dependencies ← eachOf filterClause.toList
            (fun e _ => collectExpressionDependencies e ctes) dependencies
          match overClause with
          | some (.window window) => collectWindowDependencies window ctes dependencies
          | some (.name _) => .ok dependencies
          | none => .ok dependencies
  | .functionCallStar filterOver, ctes, dependencies =>
      match filterOver with
      | none => .ok dependencies
      | some ⟨filterClause, _⟩ =>
          eachOf filterClause.toList (fun e _ => collectExpressionDependencies e ctes) dependencies
  | .inList lhs rhs, ctes, dependencies => do
      let dependencies ← collectExpressionDependencies lhs ctes dependencies
      eachOf rhs (fun e _ => collectExpressionDependencies e ctes) dependencies
  | .inSelect lhs rhs, ctes, dependencies => do
      let dependencies ← collectExpressionDependencies lhs ctes dependencies
      collectSelectDependencies rhs ctes dependencies
  | .inTable .., _, _ =>
      .error (.unsupportedSql "table-valued IN expressions in views are not supported")
  | .like lhs rhs escape, ctes, dependencies => do
      let dependencies ← collectExpressionDependencies lhs ctes dependencies
      let dependencies ← collectExpressionDependencies rhs ctes dependencies
      eachOf escape.toList (fun e _ => collectExpressionDependencies e ctes) dependencies
  | .parenthesized expressions, ctes, dependencies =>
      eachOf expressions (fun e _ => collectExpressionDependencies e ctes) dependencies
  | .raise expr, ctes, dependencies =>
      eachOf expr.toList (fun e _ => collectExpressionDependencies e ctes) dependencies
  | .variableName, _, _ => .error (.unsupportedSql "parameters in views are not supported")
  | .doublyQualified .., _, dependencies | .id _, _, dependencies | .literal, _, dependencies
  | .name _, _, dependencies | .qualified .., _, dependencies => .ok dependencies
termination_by e => sizeOf e
decreasing_by
  all_goals simp_wf
  all_goals grind

/-- `collect_window_dependencies`. -/
def collectWindowDependencies :
    Window Expr → List Bytes → Dependencies → Except SqlError Dependencies
  | ⟨partitionBy, orderBy, frameClause⟩, ctes, dependencies => do
      let dependencies ← eachOf partitionBy
        (fun e _ => collectExpressionDependencies e ctes) dependencies
      let dependencies ← eachOf orderBy
        (fun e _ => collectExpressionDependencies e ctes) dependencies
      match frameClause with
      | none => .ok dependencies
      | some ⟨start, finish⟩ => do
          let dependencies ← collectBoundDependencies start ctes dependencies
          eachOf finish.toList (fun bound _ => collectBoundDependencies bound ctes) dependencies
termination_by window => sizeOf window
decreasing_by
  all_goals simp_wf
  all_goals grind

/-- The loop body of `collect_window_dependencies` on a bound of the frame. -/
def collectBoundDependencies :
    FrameBound Expr → List Bytes → Dependencies → Except SqlError Dependencies
  | .following expr, ctes, dependencies | .preceding expr, ctes, dependencies =>
      collectExpressionDependencies expr ctes dependencies
  | .currentRow, _, dependencies | .unboundedFollowing, _, dependencies
  | .unboundedPreceding, _, dependencies => .ok dependencies
termination_by bound => sizeOf bound

end

/-- `collect_view_dependencies`. -/
def collectViewDependencies (select : Select) : Except SqlError (List SqlName) := do
  let dependencies ← collectSelectDependencies select [] OrdMap.empty
  if dependencies.entries.isEmpty then
    .error (.unsupportedSql "views must read at least one synchronized base table")
  else .ok dependencies.values

/-! ## Statements -/

/-- `Stmt::CreateView`. -/
structure CreateView where
  temporary : Bool
  ifNotExists : Bool
  viewName : QualifiedName
  select : Select

/-- `CreateViewSpec`. -/
structure CreateViewSpec where
  name : SqlName
  dependencies : List SqlName
  deriving DecidableEq

/-- `validate_execute_statement`, on CREATE VIEW. -/
def validateCreateView (statement : CreateView) : Except SqlError CreateViewSpec := do
  if statement.temporary || statement.ifNotExists then
    .error (.unsupportedSql "temporary and IF NOT EXISTS views are not supported")
  else if statement.viewName.dbName.isSome || statement.viewName.aliasName.isSome then
    .error (.unsupportedSql "qualified CREATE VIEW names are not supported")
  else
    let name ← identifier statement.viewName.name
    rejectReservedSchemaName name "reserved SQLite and Multilite view names are not supported"
    if selectReadsReserved statement.select then
      .error (.unsupportedSql "views cannot read reserved Multilite tables")
    else do
      let dependencies ← collectViewDependencies statement.select
      .ok ⟨name, dependencies⟩

end Homebase.Multilite.Sql
