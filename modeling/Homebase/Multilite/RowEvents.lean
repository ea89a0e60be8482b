import Homebase.Multilite.RowChanges

set_option autoImplicit false

/-!
# Multilite: folding row events (`TableChangesBuilder`, `from_catalog` of `logical/row.rs`)

SQLite reports the rows a statement touches one by one.  A builder for each table keeps one
delta per touched row: `current` says where the live rows are, `tombstones` where a row was
that a key lost.
-/

namespace Homebase.Multilite

open Foundation Homebase.Core

/-- `CapturedChange`, with the rows as `capture` makes them. -/
inductive RowEvent where
  | insert (row : Row)
  | delete (row : Row)
  | update (before after : Row)
  deriving DecidableEq

/-- What folding fails with. -/
inductive FoldFault where
  /-- "SQLite inserted a row key already live in the statement delta" -/
  | insertedLiveKey
  /-- "SQLite delete before-image contradicts the statement delta" -/
  | deleteContradicts
  /-- "SQLite update before-image contradicts the statement delta" -/
  | updateContradicts
  /-- "SQLite update produced a duplicate live row key" -/
  | duplicateLiveKey
  /-- A row without a key, `InvalidMultiliteOp`. -/
  | codec (error : RowCodecError)
  /-- "one row statement used inconsistent rules for one synchronized table" -/
  | inconsistentRules
  /-- ".. target has no synchronized schema identity" -/
  | missingIdentity (statement : String)
  /-- `CaptureLimitExceeded` and `InvalidMultiliteOp` of the folded changes. -/
  | refused (error : RowError)
  /-- What loading a catalog and capturing a row fail with, with the text. -/
  | capture (text : String)
  /-- "invalid .. image: .." -/
  | image (kind : String) (error : RowCodecError)
  /-- An index out of bounds or a column that is expected, a panic. -/
  | outOfBounds
  deriving DecidableEq

/-- `TableChangesBuilder`. -/
structure TableChangesBuilder where
  rules : RowRules
  rows : List RowDelta
  current : OrdMap Key Nat
  tombstones : OrdMap Key Nat

namespace TableChangesBuilder

/-- A builder nothing was reported to. -/
def new (rules : RowRules) : TableChangesBuilder := ⟨rules, [], OrdMap.empty, OrdMap.empty⟩

/-- `self.rows[index]`. -/
def slot (b : TableChangesBuilder) (index : Nat) : Except FoldFault RowDelta :=
  orFault .outOfBounds b.rows[index]?

/-- `self.rows[index].after = after`. -/
def setAfter (b : TableChangesBuilder) (index : Nat) (after : Option Row) : TableChangesBuilder :=
  { b with rows := b.rows.modify index fun delta => { delta with after := after } }

/-- `self.rows.push(RowDelta { before, after: None })`. -/
def push (b : TableChangesBuilder) (before : Option Row) : TableChangesBuilder :=
  { b with rows := b.rows ++ [⟨before, none⟩] }

/-- The slot of a tombstone, if no row lives in it. -/
def vacated (b : TableChangesBuilder) (key : Key) : Except FoldFault (Option Nat) :=
  match b.tombstones.get key with
  | none => .ok none
  | some index => do
      let delta ← b.slot index
      .ok (if delta.after = none then some index else none)

/-- `insert`. -/
def insert (b : TableChangesBuilder) (key : Key) (row : Row) :
    Except FoldFault TableChangesBuilder := do
  if b.current.get key ≠ none then .error .insertedLiveKey
  else
    let reused ← b.vacated key
    let b := { b with tombstones := b.tombstones.erase key }
    let (index, b) := match reused with
      | some index => (index, b)
      | none => (b.rows.length, b.push none)
    let b := b.setAfter index (some row)
    .ok { b with current := b.current.insert key index }

/-- What `delete` and `update` begin with: the slot of the row that goes, which is no longer
current. -/
def take (b : TableChangesBuilder) (key : Key) (row : Row) (contradicts : FoldFault) :
    Except FoldFault (Nat × TableChangesBuilder) :=
  match b.current.get key with
  | some index => do
      let delta ← b.slot index
      if delta.after ≠ some row then .error contradicts
      else .ok (index, { b with current := b.current.erase key })
  | none => .ok (b.rows.length, b.push (some row))

/-- `delete`. -/
def delete (b : TableChangesBuilder) (key : Key) (row : Row) :
    Except FoldFault TableChangesBuilder := do
  let (index, b) ← b.take key row .deleteContradicts
  let b := b.setAfter index none
  .ok { b with tombstones := b.tombstones.insert key index }

/-- `update`. -/
def update (b : TableChangesBuilder) (beforeKey : Key) (before : Row) (afterKey : Key)
    (after : Row) : Except FoldFault TableChangesBuilder := do
  let (index, b) ← b.take beforeKey before .updateContradicts
  if ((b.current.get afterKey).any fun other => decide (other ≠ index)) = true then
    .error .duplicateLiveKey
  else
    let b := b.setAfter index (some after)
    .ok { b with
      tombstones :=
        if beforeKey ≠ afterKey then b.tombstones.insert beforeKey index
        else b.tombstones.erase beforeKey
      current := b.current.insert afterKey index }

/-- A row without a key. -/
def orCodec {α : Type} : Except RowCodecError α → Except FoldFault α
  | .ok a => .ok a
  | .error error => .error (.codec error)

/-- One round of `from_catalog`, for the builder of its table. -/
def event (b : TableChangesBuilder) : RowEvent → Except FoldFault TableChangesBuilder
  | .insert row => do
      let key ← orCodec (b.rules.rowKey row)
      b.insert key row
  | .delete row => do
      let key ← orCodec (b.rules.rowKey row)
      b.delete key row
  | .update before after => do
      let beforeKey ← orCodec (b.rules.rowKey before)
      let afterKey ← orCodec (b.rules.rowKey after)
      b.update beforeKey before afterKey after

/-- The deltas that are retained. -/
def retained (b : TableChangesBuilder) : List RowDelta :=
  b.rows.filter fun delta => decide (delta.before ≠ delta.after)

end TableChangesBuilder

/-! ## Table states -/

/-- The rows of a table, by their keys. -/
abbrev TableRows : Type := OrdMap Key Row

namespace RowEvent

/-- What an event does to a table, if it is valid against it: an inserted key is absent, a
deleted or updated image is the current row, and an updated row moves to an absent key or stays
at its own. -/
def effect (rules : RowRules) (S : TableRows) : RowEvent → Option TableRows
  | insert row =>
      match rules.rowKey row with
      | .error _ => none
      | .ok key => if S.get key = none then some (S.insert key row) else none
  | delete row =>
      match rules.rowKey row with
      | .error _ => none
      | .ok key => if S.get key = some row then some (S.erase key) else none
  | update before after =>
      match rules.rowKey before, rules.rowKey after with
      | .ok beforeKey, .ok afterKey =>
          if S.get beforeKey = some before ∧ (S.erase beforeKey).get afterKey = none then
            some ((S.erase beforeKey).insert afterKey after)
          else none
      | _, _ => none

end RowEvent

end Homebase.Multilite
