import Homebase.Multilite.Capture
import Homebase.Refine.RowCodec
import Homebase.Refine.RowFold

set_option autoImplicit false

/-!
# Captured changes can be read back

A loaded catalog knows definitions whose ids are random UUIDs, no id used twice.  So the rules read
off a definition and the rows captured under it are `Durable`, and folding keeps that.
-/

namespace Homebase.Multilite

open Foundation Homebase.Core List

/-! ## Definitions -/

/-- A definition that was decoded. -/
structure CreateTable.Decoded (created : CreateTable) : Prop where
  random : ∀ id ∈ created.identities, RandomUuid id
  nodup : created.identities.Nodup

/-- A catalog of decoded definitions. -/
def CatalogSnapshot.Decoded (catalog : CatalogSnapshot) : Prop :=
  ∀ id created, catalog.tables.get id = some created → created.Decoded

theorem CatalogSnapshot.load_decoded (rows : List CatalogRow) :
    Yields CatalogSnapshot.Decoded (load rows) := by
  refine .foldlM (fun catalog row _ hcatalog => ?_) (fun id created hget => by cases hget)
  refine Yields.bind (Q := CreateTable.Decoded) ?_ fun definition hdefinition => .skip fun _ => .ok ?_
  · exact require_yields.bind fun _ hids => .ok ⟨hids.1, hids.2⟩
  · intro id created hget
    rw [OrdMap.get_insert] at hget
    split at hget
    · cases hget
      exact hdefinition
    · exact hcatalog id created hget

theorem TypeDeclaration.affinityFor_of_exact {declared : TypeDeclaration}
    (h : declared.isExactInteger = true) (mode : TableMode) :
    declared.affinityFor mode = .integer := by
  obtain ⟨name, arguments⟩ := declared
  obtain ⟨rfl, rfl⟩ := of_decide_eq_true h
  cases mode <;> decide +kernel

namespace CreateTable

variable {created : CreateTable} {column : Column} {id : ColumnId}

theorem column_eq_some (h : created.column id = some column) :
    column ∈ created.columns ∧ column.id = id :=
  ⟨mem_of_find?_eq_some h, by simpa using find?_some h⟩

namespace Decoded

variable (h : created.Decoded)
include h

theorem tableId : RandomUuid created.tableId := h.random _ (by simp [identities])

theorem primaryKey : RandomUuid created.primaryKey.id := h.random _ (by simp [identities])

theorem foreignKey {foreignKey : ForeignKeyDefinition} (hmem : foreignKey ∈ created.foreignKeys) :
    RandomUuid foreignKey.id :=
  h.random _ (mem_append_right _ (mem_map_of_mem hmem))

theorem index {index : NamedIndex} (hmem : index ∈ created.uniqueConstraints ++ created.indexes) :
    RandomUuid index.index.id := by
  refine h.random _ ?_
  simp only [identities, mem_append, mem_map] at hmem ⊢
  obtain hmem | hmem := hmem
  · exact .inl (.inl (.inr ⟨index, hmem, rfl⟩))
  · exact .inl (.inr ⟨index, hmem, rfl⟩)

theorem columnId (hmem : column ∈ created.columns) : RandomUuid column.id :=
  h.random _ (mem_append_left _ (mem_append_left _ (mem_append_left _
    (mem_append_right _ (mem_map_of_mem hmem)))))

/-- A definition with an alias of the rowid declares it INTEGER. -/
theorem keyPart (hcolumn : created.column id = some column) {rowidAlias : Bool}
    (halias : rowidAlias = true → created.isRowidAlias column.id = true) :
    (created.keyPart column rowidAlias).Durable := by
  obtain ⟨hmem, rfl⟩ := column_eq_some hcolumn
  refine ⟨h.columnId hmem, fun hrowid => ?_⟩
  have hexact := (Bool.and_eq_true_iff.mp (halias hrowid)).2
  rw [hcolumn] at hexact
  exact TypeDeclaration.affinityFor_of_exact hexact _

/-- The target of a foreign key is an index of the table, over columns of the table. -/
theorem target (index : IndexId) : Yields (fun columns => RandomUuid index ∧
      ∀ column ∈ columns, ∃ id, created.column id = some column)
    (created.foreignKeyTargetColumns index) := by
  refine orFault_yields.bind fun definition hdefinition => .skip fun _ =>
    (Yields.mapM fun id _ => ?_).mono fun columns hcolumns => ⟨?_, hcolumns⟩
  · exact orFault_yields.mono fun column hcolumn => ⟨id, hcolumn⟩
  · have hindex : definition.id = index := by simpa using find?_some hdefinition
    rw [← hindex]
    obtain rfl | hmem := mem_cons.mp (mem_of_find?_eq_some hdefinition)
    · exact h.primaryKey
    · obtain ⟨named, hnamed, rfl⟩ := mem_map.mp hmem
      exact h.index hnamed

end Decoded

end CreateTable

/-! ## Rules -/

section Rules

variable {catalog : CatalogSnapshot} {created : CreateTable} (hcatalog : catalog.Decoded)
  (hcreated : created.Decoded)

include hcreated in
theorem indexRules_durable :
    Yields (fun indexes => ∀ index ∈ indexes, index.Durable) (indexRules created) := by
  refine .mapM fun index hmem => (Yields.mapM fun id _ => ?_).bind fun parts hparts => .ok ⟨?_, hparts⟩
  · exact orFault_yields.bind fun column hcolumn =>
      .ok (hcreated.keyPart hcolumn fun halias => by cases halias)
  · refine hcreated.index ?_
    obtain hmem | hmem := mem_append.mp hmem
    · exact mem_append_left _ (mem_of_mem_filter hmem)
    · exact mem_append_right _ (mem_of_mem_filter hmem)

include hcatalog hcreated

theorem foreignKeyRule_durable {foreignKey : ForeignKeyDefinition}
    (hmem : foreignKey ∈ created.foreignKeys) :
    Yields ForeignKeyRules.Durable (foreignKeyRule catalog created foreignKey) := by
  refine orFault_yields.bind fun parent hget => ?_
  have hparent := hcatalog _ _ hget
  refine (hparent.target _).bind fun columns htarget => .skip fun _ =>
    (Yields.mapM fun pair hpair => ?_).bind fun keyParts hkeyParts =>
      .ok ⟨hcreated.foreignKey hmem, hparent.tableId, htarget.1, hkeyParts⟩
  refine require_yields.bind fun _ hchild => .ok ?_
  obtain ⟨child, hchild, hid⟩ := hchild
  obtain ⟨owned, hcolumn⟩ := htarget.2 _ (of_mem_zip hpair).2
  exact ⟨hid ▸ hcreated.columnId hchild, hparent.keyPart hcolumn id⟩

theorem incomingForeignKeyRules_durable :
    Yields (fun incoming => ∀ rules ∈ incoming, rules.Durable)
      (incomingForeignKeyRules catalog created) := by
  refine .mapM fun (child, foreignKey) hpair => .skip fun _ =>
    (hcreated.target _).bind fun columns htarget => .ok ?_
  obtain ⟨owner, howner, hpair⟩ := mem_flatMap.mp hpair
  obtain ⟨found, hfound, hsame⟩ := mem_map.mp hpair
  cases hsame
  obtain ⟨id, hget⟩ := OrdMap.mem_values_iff.mp howner
  have hchild := hcatalog _ _ hget
  refine ⟨hchild.foreignKey (mem_of_mem_filter hfound), hchild.tableId, hchild.primaryKey, htarget.1,
    forall_mem_map.mpr fun column hmem => ?_⟩
  obtain ⟨id, hcolumn⟩ := htarget.2 column hmem
  exact hcreated.keyPart hcolumn fun halias => (Bool.and_eq_true_iff.mp halias).2

theorem RowRules.fromTable_durable :
    Yields RowRules.Durable (RowRules.fromTable catalog created) := by
  refine (Yields.mapM fun id _ => ?_).bind fun primary hprimary =>
    (indexRules_durable hcreated).bind fun indexes hindexes =>
    (Yields.mapM fun foreignKey hmem =>
      foreignKeyRule_durable hcatalog hcreated (mem_of_mem_filter hmem)).bind
      fun foreignKeys hforeign =>
    (incomingForeignKeyRules_durable hcatalog hcreated).bind fun incoming hincoming => .ok
    { table := hcreated.tableId
      schemaRevision := hcreated.random _ (by simp [CreateTable.identities])
      primaryIndex := hcreated.primaryKey
      keyParts := forall_mem_map.mpr hprimary
      indexes := hindexes
      foreignKeys := hforeign
      incomingForeignKeys := hincoming }
  exact orFault_yields.mono fun column hcolumn => hcreated.keyPart hcolumn fun halias => halias

end Rules

/-! ## Rows -/

/-- A captured row has the columns of its definition. -/
theorem RowRules.capture_durable (rules : RowRules) {created : CreateTable} (captured : CapturedRow)
    (hcreated : created.Decoded) : Yields Row.Durable (rules.capture created captured) := by
  refine require_yields.bind fun _ hwidth => .skip fun _ => .skip fun _ => .skip fun _ =>
    .skip fun _ => .skip fun _ => .ok ⟨?_, ?_⟩
  · exact forall_mem_map.mpr fun pair hpair => hcreated.columnId (of_mem_zip hpair).1
  · have hcolumns : (created.columns.zip captured.values).map Prod.fst = created.columns :=
      map_fst_zip (le_of_eq hwidth.symm)
    have hids : (created.columns.map Column.id).Nodup := by
      refine hcreated.nodup.sublist ?_
      unfold CreateTable.identities
      exact (((sublist_append_right _ _).trans (sublist_append_left _ _)).trans
        (sublist_append_left _ _)).trans (sublist_append_left _ _)
    rw [← hcolumns, map_map] at hids
    rw [map_map]
    exact hids

/-! ## Folding -/

def RowEvent.Durable : RowEvent → Prop
  | insert row => row.Durable
  | delete row => row.Durable
  | update before after => before.Durable ∧ after.Durable

namespace TableChangesBuilder

/-- A builder for changes that can be read back. -/
def Durable (b : TableChangesBuilder) : Prop :=
  b.rules.Durable ∧ ∀ delta ∈ b.rows, delta.Durable

variable {b : TableChangesBuilder} {key : Key} {row : Row} (h : b.Durable)
include h

theorem Durable.setAfter {after : Option Row} (hafter : ∀ row ∈ after, row.Durable) (i : Nat) :
    (b.setAfter i after).Durable := by
  refine ⟨h.1, fun delta hmem => ?_⟩
  obtain ⟨j, hj⟩ := mem_iff_getElem?.mp hmem
  obtain ⟨old, hold, hbefore, hput⟩ := getElem?_setAfter hj
  obtain ⟨hfirst, hsecond⟩ := h.2 old (mem_of_getElem? hold)
  rw [RowDelta.Durable, hbefore, hput]
  refine ⟨hfirst, ?_⟩
  split
  · exact hafter
  · exact hsecond

theorem Durable.push {before : Option Row} (hbefore : ∀ row ∈ before, row.Durable) :
    (b.push before).Durable :=
  ⟨h.1, forall_mem_push h.2 ⟨hbefore, forall_mem_none⟩⟩

theorem Durable.take {contradicts : FoldFault} (hrow : row.Durable) :
    Yields (fun taken => taken.2.Durable) (b.take key row contradicts) := by
  unfold TableChangesBuilder.take
  split
  · exact .skip fun _ => .ite (.error _) (.ok h)
  · exact .ok (h.push (forall_mem_some hrow))

theorem Durable.insert (hrow : row.Durable) : Yields Durable (b.insert key row) := by
  refine .ite (.error _) (.skip fun reused => .ok ?_)
  cases reused with
  | none => exact (h.push forall_mem_none).setAfter (forall_mem_some hrow) _
  | some index => exact h.setAfter (forall_mem_some hrow) _

/-- The rows of a builder are rows of the events it was told. -/
theorem Durable.event {event : RowEvent} (hevent : event.Durable) : Yields Durable (b.event event) := by
  cases event with
  | insert row => exact .skip fun key => h.insert hevent
  | delete row =>
    exact .skip fun key => (h.take hevent).bind fun taken htaken =>
      .ok (htaken.setAfter forall_mem_none _)
  | update before after =>
    exact .skip fun _ => .skip fun _ => (h.take hevent.1).bind fun taken htaken =>
      .ite (.error _) (.ok (htaken.setAfter (forall_mem_some hevent.2) _))

end TableChangesBuilder

section Statements

variable {catalog : CatalogSnapshot} (hcatalog : catalog.Decoded)
include hcatalog

theorem capturedImage_durable (captured : CapturedRow) {statement : String}
    {expected : Option RowRules} (hexpected : ∀ rules ∈ expected, rules.Durable) :
    Yields (fun image => image.1.Durable ∧ image.2.Durable)
      (capturedImage catalog statement captured expected) := by
  refine orFault_yields.bind fun created hcreated => ?_
  obtain ⟨id, -, hget⟩ := Option.bind_eq_some_iff.mp hcreated
  have hdecoded := hcatalog id created hget
  refine Yields.bind (Q := RowRules.Durable) ?_ fun rules hrules =>
    (rules.capture_durable captured hdecoded).bind fun row hrow => .skip fun _ => .ok ⟨hrules, hrow⟩
  cases expected with
  | none => exact RowRules.fromTable_durable hcatalog hdecoded
  | some rules => exact .skip fun _ => .ok (hexpected rules rfl)

theorem CapturedChange.images_durable (change : CapturedChange) :
    Yields (fun image => image.1.Durable ∧ image.2.Durable) (change.images catalog) := by
  cases change with
  | insert row => exact (capturedImage_durable hcatalog row forall_mem_none).bind fun _ h => .ok h
  | delete row => exact (capturedImage_durable hcatalog row forall_mem_none).bind fun _ h => .ok h
  | update before after =>
    exact (capturedImage_durable hcatalog before forall_mem_none).bind fun _ hbefore =>
      (capturedImage_durable hcatalog after (forall_mem_some hbefore.1)).bind fun _ hafter =>
        .ok ⟨hbefore.1, hbefore.2, hafter.2⟩

/-- What is captured can be read back. -/
theorem RowChanges.fromCatalog_durable (events : List CapturedChange) :
    Yields (fun captured => ∀ changes ∈ captured, RowChanges.Durable changes)
      (RowChanges.fromCatalog catalog events) := by
  refine (Yields.foldlM (P := fun builders : OrdMap TableId TableChangesBuilder =>
    ∀ id b, builders.get id = some b → b.Durable) (fun builders change _ hbuilders => ?_)
    (fun id b hget => by cases hget)).bind fun builders hbuilders => ?_
  · refine (CapturedChange.images_durable hcatalog change).bind fun image himage =>
      Yields.bind (Q := TableChangesBuilder.Durable) ?_ fun builder hbuilder =>
        (hbuilder.event himage.2).bind fun folded hfolded => .ok fun id b hget => ?_
    · unfold tableBuilder
      split
      · exact .skip fun _ => .ok (hbuilders _ _ ‹_›)
      · exact .ok ⟨himage.1, forall_mem_nil _⟩
    · rw [OrdMap.get_insert] at hget
      split at hget
      · cases hget
        exact hfolded
      · exact hbuilders id b hget
  · refine .ite (.ok forall_mem_none) (.skip fun _ => .skip fun _ => .ok (forall_mem_some ?_))
    intro table hmem
    obtain ⟨builder, hbuilder, rfl⟩ := mem_map.mp (mem_of_mem_filter hmem)
    obtain ⟨id, hget⟩ := OrdMap.mem_values_iff.mp hbuilder
    obtain ⟨hrules, hrows⟩ := hbuilders id builder hget
    exact ⟨hrules, fun delta hdelta => hrows delta (mem_of_mem_filter hdelta)⟩

end Statements

end Homebase.Multilite
