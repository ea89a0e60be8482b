import Homebase.Foundation.Fixed

set_option autoImplicit false

/-!
# Multilite: SQL names and syntax trees (`schema.rs`, `sql.rs`)

The syntax trees are those of the SQL parser, as far as a walker looks at them: operators, literals,
sort orders, frame modes and aliases are left out, and an optional list is a list, since every walker
loops over both in the same way.  Names are the bytes of their token.
-/

namespace Homebase.Multilite.Sql

open Foundation

/-! ## Names -/

/-- `Name`: the token of an identifier. -/
abbrev Name : Type := Bytes

/-- `Error::UnsupportedSql`. -/
inductive SqlError where
  | unsupportedSql (message : String)
  deriving DecidableEq

/-- `u8::to_ascii_lowercase`. -/
def asciiLowercase (b : U8) : U8 := if 0x41 ≤ b ∧ b ≤ 0x5a then b + 0x20 else b

/-- `SqlName`. -/
structure SqlName where
  value : Bytes
  canonical : Bytes
  deriving DecidableEq

/-- `SqlName::new`. -/
def SqlName.new (value : Bytes) : SqlName := ⟨value, value.map asciiLowercase⟩

/-- `unescape_identifier`: of two quotes in a row one is kept. -/
def unescapeIdentifier (quote : U8) : Bytes → Bytes
  | [] => []
  | [b] => [b]
  | b :: c :: rest =>
      if b = quote ∧ c = quote then b :: unescapeIdentifier quote rest
      else b :: unescapeIdentifier quote (c :: rest)

/-- What stands between two bytes that open and close a token. -/
def middle (opening closing : U8) : Bytes → Option Bytes
  | [] => none
  | b :: rest => if b = opening ∧ rest.getLast? = some closing then some rest.dropLast else none

/-- `SqlName::from_sqlite_token`, with the quotes `"`, the grave accent, `[ ]` and `'`. -/
def SqlName.fromSqliteToken (token : Name) : Except SqlError SqlName :=
  let value :=
    match middle 0x22 0x22 token, middle 0x60 0x60 token, middle 0x5b 0x5d token,
      middle 0x27 0x27 token with
    | some bytes, _, _, _ => unescapeIdentifier 0x22 bytes
    | none, some bytes, _, _ => unescapeIdentifier 0x60 bytes
    | none, none, some bytes, _ => unescapeIdentifier 0x5d bytes
    | none, none, none, some bytes => unescapeIdentifier 0x27 bytes
    | none, none, none, none => token
  if value.isEmpty then .error (.unsupportedSql "empty identifiers are not supported")
  else .ok (SqlName.new value)

/-- `identifier`. -/
def identifier (name : Name) : Except SqlError SqlName := SqlName.fromSqliteToken name

/-- "__multilite__". -/
def multilitePrefix : Bytes :=
  [0x5f, 0x5f, 0x6d, 0x75, 0x6c, 0x74, 0x69, 0x6c, 0x69, 0x74, 0x65, 0x5f, 0x5f]

/-- "sqlite_". -/
def sqlitePrefix : Bytes := [0x73, 0x71, 0x6c, 0x69, 0x74, 0x65, 0x5f]

/-- `has_multilite_prefix`. -/
def hasMultilitePrefix (table : Bytes) : Bool :=
  (table.take multilitePrefix.length).map asciiLowercase == multilitePrefix

/-- `is_sqlite_internal_table`. -/
def isSqliteInternalTable (table : Bytes) : Bool :=
  (table.take sqlitePrefix.length).map asciiLowercase == sqlitePrefix

/-- `reject_reserved_schema_name`, with the message for its kind. -/
def rejectReservedSchemaName (name : SqlName) (message : String) : Except SqlError Unit :=
  if hasMultilitePrefix name.value || isSqliteInternalTable name.value then
    .error (.unsupportedSql message)
  else .ok ()

/-- `name_reads_reserved`: a token that is no identifier counts as reserved. -/
def nameReadsReserved (name : Name) : Bool :=
  match SqlName.fromSqliteToken name with
  | .ok name => hasMultilitePrefix name.value
  | .error _ => true

/-! ## Syntax trees -/

/-- `QualifiedName`. -/
structure QualifiedName where
  dbName : Option Name
  name : Name
  aliasName : Option Name
  deriving DecidableEq

section Records

variable (E S T : Type)

/-- `FrameBound`. -/
inductive FrameBound where
  | currentRow
  | following (expr : E)
  | preceding (expr : E)
  | unboundedFollowing
  | unboundedPreceding

/-- `FrameClause`. -/
structure FrameClause where
  start : FrameBound E
  finish : Option (FrameBound E)

/-- `Window`. -/
structure Window where
  partitionBy : List E
  orderBy : List E
  frameClause : Option (FrameClause E)

/-- `Over`. -/
inductive Over where
  | window (window : Window E)
  | name (name : Name)

/-- `FunctionTail`. -/
structure FunctionTail where
  filterClause : Option E
  overClause : Option (Over E)

/-- `ResultColumn`. -/
inductive ResultColumn where
  | expr (expr : E)
  | star
  | tableStar (name : Name)

/-- `Limit`. -/
structure Limit where
  expr : E
  offset : Option E

/-- `CommonTableExpr`. -/
structure CommonTableExpr where
  tblName : Name
  select : S

/-- `JoinConstraint`. -/
inductive JoinConstraint where
  | on (expr : E)
  | using (columns : List Name)

/-- `JoinedSelectTable`. -/
structure JoinedSelectTable where
  table : T
  constraint : Option (JoinConstraint E)

/-- `FromClause`. -/
structure FromClause where
  select : Option T
  joins : List (JoinedSelectTable E T)

end Records

mutual

/-- `Expr`. -/
inductive Expr where
  | between (lhs start finish : Expr)
  | binary (left right : Expr)
  | caseWhen (base : Option Expr) (whenThenPairs : List (Expr × Expr)) (elseExpr : Option Expr)
  | cast (expr : Expr)
  | collate (expr : Expr)
  | doublyQualified (db table column : Name)
  | existsIn (select : Select)
  | functionCall (args orderBy : List Expr) (filterOver : Option (FunctionTail Expr))
  | functionCallStar (filterOver : Option (FunctionTail Expr))
  | id (name : Name)
  | inList (lhs : Expr) (rhs : List Expr)
  | inSelect (lhs : Expr) (rhs : Select)
  | inTable (lhs : Expr) (rhs : QualifiedName) (args : Option (List Expr))
  | isNull (expr : Expr)
  | like (lhs rhs : Expr) (escape : Option Expr)
  | literal
  | name (name : Name)
  | notNull (expr : Expr)
  | parenthesized (expressions : List Expr)
  | qualified (table column : Name)
  | raise (expr : Option Expr)
  | subquery (select : Select)
  | unary (expr : Expr)
  | variableName

/-- `Select`. -/
inductive Select where
  | mk (ctes : List (CommonTableExpr Select)) (body : OneSelect) (compounds : List OneSelect)
      (orderBy : List Expr) (limit : Option (Limit Expr))

/-- `OneSelect`. -/
inductive OneSelect where
  | select (columns : List (ResultColumn Expr)) (fromClause : Option (FromClause Expr SelectTable))
      (whereClause : Option Expr) (groupBy : List Expr) (having : Option Expr)
      (windowClause : List (Window Expr))
  | values (rows : List (List Expr))

/-- `SelectTable`. -/
inductive SelectTable where
  | table (name : QualifiedName) (indexed : Bool)
  | tableCall (name : QualifiedName) (args : List Expr)
  | select (select : Select)
  | sub (fromClause : FromClause Expr SelectTable)

end

end Homebase.Multilite.Sql
