import Homebase.Multilite.Targets

set_option autoImplicit false

/-!
# Multilite: the column catalog (`catalog.rs`, `logical/alter.rs`, `logical/schema.rs`)

The catalog keeps a row for every column a table has ever had: the column before it when it was
added, and its name while it is active.  The rows of one table are a map here, since their
primary key is the identity of the column; so the duplicate identity that the source refuses
cannot occur.  Of a table definition there are the identities of its columns.
-/

namespace Homebase.Multilite

open Foundation

/-- `SqlName`, by its canonical bytes. -/
abbrev SqlName : Type := Bytes

/-- Why the catalog refuses. -/
inductive ColumnFault where
  /-- a key or a unique index of the catalog is violated -/
  | constraint
  | columnChanged
  | noRoot
  | unknownPredecessor
  | invalidRoot
  | cycle
  | disconnected
  | contradictsDefinition
  deriving DecidableEq

/-- A row of the column catalog. -/
structure ColumnNode where
  predecessor : Option ColumnId
  name : Option SqlName
  deriving DecidableEq

/-- The column is active. -/
def ColumnNode.active (node : ColumnNode) : Bool := node.name.isSome

/-- The rows of one table. -/
abbrev ColumnNodes : Type := OrdMap ColumnId ColumnNode

namespace ColumnNodes

/-- The unique index on the names of a table; retired columns are not in it. -/
def bound (nodes : ColumnNodes) (name : SqlName) : Bool :=
  nodes.values.any fun node => node.name == some name

/-- The column is active. -/
def active (nodes : ColumnNodes) (column : ColumnId) : Bool :=
  (nodes.get column).any ColumnNode.active

/-! ## Bindings -/

/-- `INSERT` of one row. -/
def insertRow (nodes : ColumnNodes) (column : ColumnId) (predecessor : Option ColumnId)
    (name : SqlName) : Except ColumnFault ColumnNodes :=
  if nodes.contains column || nodes.bound name then .error .constraint
  else .ok (nodes.insert column ⟨predecessor, some name⟩)

/-- `insert_column_binding`. -/
def insertColumnBinding (nodes : ColumnNodes) (column predecessor : ColumnId) (name : SqlName) :
    Except ColumnFault ColumnNodes :=
  nodes.insertRow column (some predecessor) name

/-- `retire_column_binding`. -/
def retireColumnBinding (nodes : ColumnNodes) (column : ColumnId) :
    Except ColumnFault ColumnNodes :=
  match nodes.get column with
  | some ⟨predecessor, some _⟩ => .ok (nodes.insert column ⟨predecessor, none⟩)
  | _ => .error .columnChanged

/-- `restore_column_binding`. -/
def restoreColumnBinding (nodes : ColumnNodes) (column : ColumnId) (name : SqlName) :
    Except ColumnFault ColumnNodes :=
  match nodes.get column with
  | some ⟨predecessor, none⟩ =>
    if nodes.bound name then .error .constraint
    else .ok (nodes.insert column ⟨predecessor, some name⟩)
  | _ => .error .columnChanged

/-- The loop of `insert` over the columns of a new table. -/
def insertColumns : ColumnNodes → Option ColumnId → List (ColumnId × SqlName) →
    Except ColumnFault ColumnNodes
  | nodes, _, [] => .ok nodes
  | nodes, predecessor, (column, name) :: rest => do
    let nodes ← nodes.insertRow column predecessor name
    insertColumns nodes (some column) rest

/-! ## The order of columns -/

/-- `children`, which the source sorts: the entries of a map are in the order of their keys. -/
def children (nodes : ColumnNodes) (parent : Option ColumnId) : List ColumnId :=
  (nodes.entries.filter fun entry => entry.2.predecessor = parent).map Prod.fst

/-- `visited` and `active`. -/
structure Trail where
  visited : List ColumnId
  active : List ColumnId
  deriving DecidableEq

/-- A column is met. -/
def Trail.meet (nodes : ColumnNodes) (trail : Trail) (column : ColumnId) : Trail :=
  ⟨trail.visited ++ [column],
    if nodes.active column then trail.active ++ [column] else trail.active⟩

/-- `visit`.  A path of columns that are met once is no longer than the catalog, so a walk
deeper than that would have met a column twice. -/
def visit (nodes : ColumnNodes) : Nat → Option ColumnId → Trail → Except ColumnFault Trail
  | 0, _, _ => .error .cycle
  | depth + 1, parent, trail =>
    (nodes.children parent).foldlM (fun trail column =>
      if column ∈ trail.visited then .error .cycle
      else visit nodes depth (some column) (trail.meet nodes column)) trail

/-- Every predecessor is in the catalog. -/
def predecessorsKnown (nodes : ColumnNodes) : Bool :=
  nodes.values.all fun node => node.predecessor.all nodes.contains

/-- `column_order`. -/
def columnOrder (nodes : ColumnNodes) : Except ColumnFault (List ColumnId) :=
  if nodes.entries.isEmpty then .error .noRoot
  else if !nodes.predecessorsKnown then .error .unknownPredecessor
  else if (nodes.children none).length ≠ 1 then .error .invalidRoot
  else do
    let trail ← nodes.visit (nodes.entries.length + 1) none ⟨[], []⟩
    if trail.visited.length ≠ nodes.entries.length ∨ trail.active.isEmpty then
      .error .disconnected
    else .ok trail.active

end ColumnNodes

/-! ## Tables -/

/-- A table of the catalog: the columns of its definition, and its rows. -/
structure TableColumns where
  columns : List ColumnId
  nodes : ColumnNodes
  deriving DecidableEq

/-- What can happen to the columns of a table. -/
inductive ColumnTransition where
  /-- `CREATE TABLE` -/
  | create (columns : List (ColumnId × SqlName))
  /-- `ADD COLUMN` -/
  | add (column predecessor : ColumnId) (name : SqlName)
  /-- `DROP COLUMN` -/
  | drop (column : ColumnId)
  /-- the rollback of `ADD COLUMN` -/
  | revertAdd (column : ColumnId)
  /-- the rollback of `DROP COLUMN` -/
  | restoreDrop (column : ColumnId) (name : SqlName)
  deriving DecidableEq

/-- `reorder_columns`. -/
def reorderColumns (columns order : List ColumnId) : Except ColumnFault (List ColumnId) :=
  if order.length = columns.length ∧ order.Nodup ∧ ∀ column ∈ order, column ∈ columns then
    .ok order
  else .error .contradictsDefinition

namespace TableColumns

/-- The columns of `fold_added_column`. -/
def foldAddedColumn (columns : List ColumnId) (column : ColumnId) (order : List ColumnId) :
    Except ColumnFault (List ColumnId) :=
  if column ∈ columns then .error .contradictsDefinition
  else reorderColumns (columns ++ [column]) order

/-- The columns of `fold_removed_column` and of `fold_reverted_added_column`. -/
def foldRemovedColumn (columns : List ColumnId) (column : ColumnId) (order : List ColumnId) :
    Except ColumnFault (List ColumnId) :=
  if column ∈ columns then reorderColumns (columns.erase column) order
  else .error .contradictsDefinition

/-- `record_catalog` and `rollback`, as far as columns are concerned. -/
def apply (table : TableColumns) : ColumnTransition → Except ColumnFault TableColumns
  | .create _ => .error .constraint
  | .add column predecessor name => do
    let nodes ← table.nodes.insertColumnBinding column predecessor name
    let order ← nodes.columnOrder
    let columns ← foldAddedColumn table.columns column order
    return ⟨columns, nodes⟩
  | .drop column | .revertAdd column => do
    let nodes ← table.nodes.retireColumnBinding column
    let order ← nodes.columnOrder
    let columns ← foldRemovedColumn table.columns column order
    return ⟨columns, nodes⟩
  | .restoreDrop column name => do
    let nodes ← table.nodes.restoreColumnBinding column name
    let order ← nodes.columnOrder
    let columns ← foldAddedColumn table.columns column order
    return ⟨columns, nodes⟩

/-- `insert` of a new table; a validated definition has a primary key, so it has a column. -/
def create (columns : List (ColumnId × SqlName)) : Except ColumnFault TableColumns :=
  if columns = [] then .error .contradictsDefinition
  else do
    let nodes ← ColumnNodes.insertColumns .empty none columns
    return ⟨columns.map Prod.fst, nodes⟩

/-- The catalog of one table, from before its creation. -/
def step : Option TableColumns → ColumnTransition → Option (Option TableColumns)
  | none, .create columns => (create columns).toOption.map some
  | none, _ => none
  | some table, transition => (table.apply transition).toOption.map some

/-- `prepare_add_column`: the new column follows the last column of the local definition. -/
def prepareAddColumn (table : TableColumns) (column : ColumnId) (name : SqlName) :
    Option ColumnTransition :=
  table.columns.getLast?.map fun predecessor => .add column predecessor name

end TableColumns

end Homebase.Multilite
