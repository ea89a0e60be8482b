import Homebase.Refine.RowFold

set_option autoImplicit false

/-!
# Row-event folding is a correct net effect

Whatever a valid stream of events does to a table, the deltas a builder retains remove rows
of the first state and add rows such that the last state comes out.
-/

namespace Homebase.Multilite

open Foundation Homebase.Core

/-- Folding never fails on a valid stream, and what it retains is the net effect: before-images
are rows of the first state with distinct keys, after-images have distinct keys, and removing
the former and adding the latter gives the last state. -/
theorem folding_net_effect (rules : RowRules) (S₀ Sₙ : TableRows) (events : List RowEvent)
    (hvalid : events.foldlM (RowEvent.effect rules) S₀ = some Sₙ) :
    ∃ b, events.foldlM TableChangesBuilder.event (TableChangesBuilder.new rules) = .ok b ∧
      NetEffect rules S₀ Sₙ b.retained := by
  obtain ⟨b, hb, hfolds⟩ := (Folds.new rules S₀).run hvalid
  exact ⟨b, hb, hfolds.netEffect⟩

/-! ## A table of numbers -/

namespace Numbers

/-- Ids that differ in all their bytes. -/
def id (n : U8) : ByteArr 16 := ByteArr.filled 16 n

/-- A key and a unique number. -/
def rules : RowRules where
  table := id 1
  schemaRevision := id 10
  primaryIndex := id 11
  storage := .rowid
  keyParts := [⟨id 12, .integer, true⟩]
  indexes := [⟨id 13, [⟨id 14, .integer, false⟩]⟩]
  foreignKeys := []
  incomingForeignKeys := []

def integer (n : Fin 8) : StoredValue := .integer ⟨n.val, by omega, by omega⟩

def row (key number : Fin 8) : Row := ⟨[(id 12, integer key), (id 14, integer number)]⟩

/-- A table with these rows. -/
def table (rows : List Row) : TableRows := addRows rules OrdMap.empty rows

end Numbers

open Numbers in
/-- Two keys are swapped by way of a third, and a row comes and goes. -/
theorem folding_net_effect_swap :
    ∃ b, [RowEvent.update (row 1 1) (row 3 1), .update (row 2 2) (row 1 2),
        .update (row 3 1) (row 2 1), .insert (row 5 5), .delete (row 5 5)].foldlM
          TableChangesBuilder.event (TableChangesBuilder.new rules) = .ok b ∧
      NetEffect rules (table [row 1 1, row 2 2]) (table [row 1 2, row 2 1]) b.retained :=
  folding_net_effect rules _ _ _ (by decide +kernel)

end Homebase.Multilite
