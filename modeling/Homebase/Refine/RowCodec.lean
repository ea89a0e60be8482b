import Homebase.Multilite.RowCodec
import Homebase.Refine.RowSets

set_option autoImplicit false

/-!
# Round trips of row changes

`Durable` is what holds of the rules and rows that capture and decoding build, and that lowering
does not check: ids are random UUIDs, a row names each column once, and an alias of the rowid has
INTEGER affinity.  A durable statement that can be lowered is read back from its frame, and the
length its budget is checked with is the length of the frame.
-/

namespace Homebase.Multilite

open Foundation Homebase.Core List

/-! ## What capture and decoding build -/

/-- A part of a key that can be read back. -/
def KeyPartRules.Durable (part : KeyPartRules) : Prop :=
  RandomUuid part.column ∧ (part.rowidAlias = true → part.affinity = .integer)

def IndexRules.Durable (index : IndexRules) : Prop :=
  RandomUuid index.index ∧ ∀ part ∈ index.parts, part.Durable

def ForeignKeyPartRules.Durable (part : ForeignKeyPartRules) : Prop :=
  RandomUuid part.childColumn ∧ part.parent.Durable

def ForeignKeyRules.Durable (foreignKey : ForeignKeyRules) : Prop :=
  RandomUuid foreignKey.id ∧ RandomUuid foreignKey.parentTable ∧
    RandomUuid foreignKey.parentIndex ∧ ∀ part ∈ foreignKey.keyParts, part.Durable

def IncomingForeignKeyRules.Durable (incoming : IncomingForeignKeyRules) : Prop :=
  RandomUuid incoming.id ∧ RandomUuid incoming.childTable ∧
    RandomUuid incoming.childPrimaryIndex ∧ RandomUuid incoming.parentIndex ∧
      ∀ part ∈ incoming.parentKeyParts, part.Durable

/-- The rules of a table, as a catalog has them. -/
structure RowRules.Durable (rules : RowRules) : Prop where
  table : RandomUuid rules.table
  schemaRevision : RandomUuid rules.schemaRevision
  primaryIndex : RandomUuid rules.primaryIndex
  keyParts : ∀ part ∈ rules.keyParts, part.Durable
  indexes : ∀ index ∈ rules.indexes, index.Durable
  foreignKeys : ∀ foreignKey ∈ rules.foreignKeys, foreignKey.Durable
  incomingForeignKeys : ∀ incoming ∈ rules.incomingForeignKeys, incoming.Durable

/-- A row, as it is captured: each column once. -/
structure Row.Durable (row : Row) : Prop where
  columns : ∀ pair ∈ row.values, RandomUuid pair.1
  nodup : (row.values.map Prod.fst).Nodup

def RowDelta.Durable (delta : RowDelta) : Prop :=
  (∀ row ∈ delta.before, row.Durable) ∧ ∀ row ∈ delta.after, row.Durable

def TableChanges.Durable (table : TableChanges) : Prop :=
  table.rules.Durable ∧ ∀ delta ∈ table.rows, delta.Durable

/-- The changes of a statement. -/
def RowChanges.Durable (changes : RowChanges) : Prop := ∀ table ∈ changes, table.Durable

/-! ## Lengths -/

/-- A loop that adds up. -/
theorem foldlM_sum {ε α : Type} {step : Nat → α → Except ε Nat} {g : α → Nat} {l : List α}
    {init total : Nat} (h : ∀ acc, ∀ x ∈ l, ∀ next, step acc x = .ok next → next = acc + g x)
    (hrun : l.foldlM step init = .ok total) : total = init + (l.map g).sum := by
  induction l generalizing init with
  | nil =>
    cases hrun
    rfl
  | cons x l ih =>
    rw [foldlM_cons] at hrun
    obtain ⟨next, hnext, hrun⟩ := of_bind hrun
    rw [ih (fun acc y hy => h acc y (mem_cons_of_mem _ hy)) hrun,
      h init x mem_cons_self next hnext, map_cons, sum_cons]
    omega

/-- The fields of a frame are no longer than the frame. -/
theorem short_of_versioned {version : U8} {e : List (U8 × Bytes)}
    (h : (version :: Writer.fields e).length < 2 ^ 32) :
    (Writer.fields e).length < 2 ^ 32 ∧
      ∀ tag payload, (tag, payload) ∈ e → payload.length < 2 ^ 32 := by
  have hfields := Nat.lt_of_succ_lt h
  exact ⟨hfields, fun tag payload hmem => Nat.lt_trans (Writer.length_lt_fields hmem) hfields⟩

theorem length_writtenFields (entries : List (U8 × Bytes)) :
    (Writer.fields entries).length = (entries.map fun entry => entry.2.length + 5).sum := by
  simp only [Writer.fields, length_flatMap, Writer.length_field]

theorem fieldLen_eq_ok {payload n : Nat} (h : fieldLen payload = .ok n) : n = payload + 5 := by
  unfold fieldLen at h
  split at h
  · cases h
    rfl
  · cases h

theorem StoredValue.length_encode (value : StoredValue) :
    value.encode.length = value.encodedLen := by
  cases value with
  | null => rfl
  | integer value => simp [StoredValue.encode, StoredValue.encodedLen]
  | real bits => simp [StoredValue.encode, StoredValue.encodedLen]
  | text bytes => simp [StoredValue.encode, StoredValue.encodedLen, Nat.add_comm]
  | blob bytes => simp [StoredValue.encode, StoredValue.encodedLen, Nat.add_comm]

theorem encodeColumnValue_eq (column : ColumnId) (value : StoredValue) :
    encodeColumnValue column value = Writer.fields [(1, column.bytes), (2, value.encode)] := by
  simp only [Writer.fields, flatMap_cons, flatMap_nil, append_nil]
  rfl

theorem length_encodeColumnValue (column : ColumnId) (value : StoredValue) :
    (encodeColumnValue column value).length = 16 + 5 + (value.encodedLen + 5) := by
  rw [encodeColumnValue_eq, length_writtenFields]
  simp [column.length_eq, value.length_encode]

variable {row : Row}

theorem rowImageLen_eq_ok {n : Nat} (h : rowImageLen row = .ok n) :
    n = (encodeRowImage row).length := by
  have hsum := foldlM_sum (g := fun pair => 16 + 5 + (pair.2.encodedLen + 5) + 5)
    (fun acc pair _ next hnext => ?_) h
  · rw [hsum, encodeRowImage, length_cons, length_writtenFields, map_map, Nat.add_comm]
    congr 2
    refine map_congr_left fun pair _ => ?_
    rw [Function.comp_apply, length_encodeColumnValue]
  · obtain ⟨column, hcolumn, hnext⟩ := of_bind hnext
    obtain ⟨value, hvalue, hnext⟩ := of_bind hnext
    obtain ⟨pairLen, hpair, hnext⟩ := of_bind hnext
    cases hnext
    rw [fieldLen_eq_ok hpair, fieldLen_eq_ok hcolumn, fieldLen_eq_ok hvalue]

variable {delta : RowDelta}

theorem RowDelta.encodedLen_eq_ok {n : Nat} (h : delta.encodedLen = .ok n) :
    n = delta.encode.length := by
  have hsum := foldlM_sum (g := fun row => (encodeRowImage row).length + 5)
    (fun acc row _ next hnext => ?_) h
  · rw [hsum, RowDelta.encode, length_cons, length_writtenFields, RowDelta.fields, Nat.add_comm,
      map_append, map_append, map_map, map_map]
    rfl
  · obtain ⟨image, himage, hnext⟩ := of_bind hnext
    obtain ⟨len, hlen, hnext⟩ := of_bind hnext
    cases hnext
    rw [fieldLen_eq_ok hlen, rowImageLen_eq_ok himage]

variable {table : TableChanges}

theorem TableChanges.encodedLen_eq_ok {n : Nat}
    (h : (table.encodedLen fun rules => rules.encode.length) = .ok n) :
    n = table.encode.length := by
  obtain ⟨rules, hrules, h⟩ := of_bind h
  have hsum := foldlM_sum (g := fun delta => delta.encode.length + 5)
    (fun acc delta _ next hnext => ?_) h
  · rw [hsum, fieldLen_eq_ok hrules, TableChanges.encode, length_cons, length_writtenFields,
      TableChanges.fields, map_cons, sum_cons, map_map]
    simp only [Function.comp_def]
    omega
  · obtain ⟨len, hlen, hnext⟩ := of_bind hnext
    obtain ⟨fieldLength, hfield, hnext⟩ := of_bind hnext
    cases hnext
    rw [fieldLen_eq_ok hfield, RowDelta.encodedLen_eq_ok hlen]

variable {changes : RowChanges}

/-- What the budget check computes is the length of the frame. -/
theorem RowChanges.budgetBytes_eq_ok {n : Nat} (h : changes.budgetBytes = .ok n) :
    n = changes.encode.length := by
  have hsum := foldlM_sum (g := fun table => (TableChanges.encode table).length + 5)
    (fun acc table _ next hnext => ?_) h
  · rw [hsum, RowChanges.encode, length_cons, length_writtenFields, map_map, Nat.add_comm]
    rfl
  · obtain ⟨len, hlen, hnext⟩ := of_bind hnext
    obtain ⟨fieldLength, hfield, hnext⟩ := of_bind hnext
    cases hnext
    rw [fieldLen_eq_ok hfield, TableChanges.encodedLen_eq_ok hlen]

/-! ## Values -/

theorem I64.ofU64_toU64 (value : I64) : I64.ofU64 value.toU64 = value := by
  obtain ⟨i, hlow, hhigh⟩ := value
  have hnonneg : 0 ≤ i % 2 ^ 64 := Int.emod_nonneg i (by norm_num)
  have hlt : i % 2 ^ 64 < 2 ^ 64 := Int.emod_lt_of_pos i (by norm_num)
  have hword : (I64.toU64 ⟨i, hlow, hhigh⟩).val = (i % 2 ^ 64).toNat :=
    U64.val_ofNat (by omega)
  unfold I64.ofU64
  split
  · refine Subtype.ext ?_
    dsimp only
    omega
  · refine Subtype.ext ?_
    dsimp only
    omega

theorem StoredValue.decode_encode (value : StoredValue) :
    StoredValue.decode value.encode = .ok value := by
  have hword : ∀ word : U64, Reader.u64 (toBE 8 word.val) = some (word, []) := fun word => by
    simpa using Reader.u64_append word []
  cases value with
  | null => rfl
  | integer value =>
    simp [StoredValue.encode, StoredValue.decode, hword, I64.ofU64_toU64]
  | real bits =>
    simp [StoredValue.encode, StoredValue.decode, hword]
  | text bytes => rfl
  | blob bytes => rfl

/-! ## Rules -/

theorem uuidBytes_bytes {id : ByteArr 16} (h : RandomUuid id) : uuidBytes id.bytes = .ok id := by
  simp [uuidBytes, h]

/-- An empty slot takes what was read for it. -/
theorem setOnce_read {α σ : Type} {read : Except RowCodecError α} {a : α} (h : read = .ok a)
    (put : Option α → σ) :
    (do
      let filled ← setOnce none (← read)
      Except.ok (put filled)) = Except.ok (put (some a)) := by
  rw [h]
  rfl

theorem Affinity.fromU8_toU8 (affinity : Affinity) : fromU8 affinity.toU8 = some affinity := by
  cases affinity <;> rfl

theorem TableStorage.fromU8_toU8 (storage : TableStorage) :
    fromU8 storage.toU8 = some storage := by
  cases storage <;> rfl

theorem decodeKeyPart_encode {part : KeyPartRules} (h : part.Durable) :
    decodeKeyPart (encodeKeyPart part) = .ok part := by
  obtain ⟨column, affinity, rowidAlias⟩ := part
  have hlen : (encodeKeyPart ⟨column, affinity, rowidAlias⟩).length < 2 ^ 32 := by
    rw [encodeKeyPart, length_writtenFields]
    simp [column.length_eq]
  have hcolumn : KeyPartFields.step ⟨none, none, none⟩ (1, column.bytes) =
      .ok ⟨some column, none, none⟩ :=
    setOnce_read (uuidBytes_bytes h.1) _
  have haffinity : KeyPartFields.step ⟨some column, none, none⟩ (2, [affinity.toU8]) =
      .ok ⟨some column, some affinity, none⟩ := by
    change (orFault _ (Affinity.fromU8 affinity.toU8) >>= _) = _
    rw [Affinity.fromU8_toU8]
    rfl
  unfold decodeKeyPart
  unfold encodeKeyPart at hlen ⊢
  rw [readFields_written hlen, foldlM_cons, hcolumn, ok_bind, foldlM_cons, haffinity,
    ok_bind]
  cases rowidAlias with
  | false => rfl
  | true =>
    cases h.2 rfl
    rfl

/-- The ids in front of a record are read one by one, and then the parts are pushed. -/
theorem decodeIndexRules_encode {index : IndexRules} (h : index.Durable)
    (hparts : index.parts ≠ [] ∧ (index.parts.map KeyPartRules.column).Nodup)
    (hlen : (encodeIndexRules index).length < 2 ^ 32) :
    decodeIndexRules (encodeIndexRules index) = .ok index := by
  obtain ⟨id, parts⟩ := index
  have hid : IndexFields.step ⟨none, []⟩ (1, id.bytes) = .ok ⟨some id, []⟩ :=
    setOnce_read (uuidBytes_bytes h.1) _
  unfold decodeIndexRules
  unfold encodeIndexRules at hlen ⊢
  rw [readFields_written hlen, foldlM_cons, hid, ok_bind,
    foldlM_push (fun (s : IndexFields) l => { s with parts := s.parts ++ l }) (fun s => by simp)
      (fun s x l => by simp) (fun _ _ => rfl) fun part hmem => decodeKeyPart_encode (h.2 part hmem),
    ok_bind]
  dsimp only
  rw [nil_append, require, if_pos hparts]
  rfl

theorem decodeForeignKeyPart_encode {part : ForeignKeyPartRules} (h : part.Durable)
    (hlen : (encodeForeignKeyPart part).length < 2 ^ 32) :
    decodeForeignKeyPart (encodeForeignKeyPart part) = .ok part := by
  obtain ⟨childColumn, parent⟩ := part
  have hchild : ForeignKeyPartFields.step ⟨none, none⟩ (1, childColumn.bytes) =
      .ok ⟨some childColumn, none⟩ :=
    setOnce_read (uuidBytes_bytes h.1) _
  have hparent : ForeignKeyPartFields.step ⟨some childColumn, none⟩ (2, encodeKeyPart parent) =
      .ok ⟨some childColumn, some parent⟩ :=
    setOnce_read (decodeKeyPart_encode h.2) _
  unfold decodeForeignKeyPart
  unfold encodeForeignKeyPart at hlen ⊢
  rw [readFields_written hlen, foldlM_cons, hchild, ok_bind, foldlM_cons, hparent,
    ok_bind]
  rfl

theorem decodeForeignKey_encode {foreignKey : ForeignKeyRules} (h : foreignKey.Durable)
    (hparts : foreignKey.keyParts ≠ []) (hlen : (encodeForeignKey foreignKey).length < 2 ^ 32) :
    decodeForeignKey (encodeForeignKey foreignKey) = .ok foreignKey := by
  obtain ⟨id, parentTable, parentIndex, parts⟩ := foreignKey
  obtain ⟨hid, hparentTable, hparentIndex, hdurable⟩ := h
  unfold decodeForeignKey
  unfold encodeForeignKey at hlen ⊢
  have hids : ∀ rest, foldlM ForeignKeyFields.step ⟨none, none, none, []⟩ ((1, id.bytes) ::
      (2, parentTable.bytes) :: (5, parentIndex.bytes) :: rest) =
        foldlM ForeignKeyFields.step ⟨some id, some parentTable, some parentIndex, []⟩ rest := by
    simp [ForeignKeyFields.step, setOnce, uuidBytes_bytes, hid, hparentTable, hparentIndex]
  have hread : ∀ part ∈ parts, decodeForeignKeyPart (encodeForeignKeyPart part) = .ok part := by
    intro part hmem
    have hentry : ((4 : U8), encodeForeignKeyPart part) ∈
        parts.map fun part => ((4 : U8), encodeForeignKeyPart part) := mem_map_of_mem hmem
    exact decodeForeignKeyPart_encode (hdurable part hmem) (Nat.lt_trans (Writer.length_lt_fields
      (mem_cons_of_mem _ (mem_cons_of_mem _ (mem_cons_of_mem _ hentry)))) hlen)
  rw [readFields_written hlen, hids,
    foldlM_push (fun (s : ForeignKeyFields) l => { s with keyParts := s.keyParts ++ l })
      (fun s => by simp) (fun s x l => by simp) (fun _ _ => rfl) hread, ok_bind]
  dsimp only
  rw [nil_append, require, if_pos hparts]
  rfl

theorem decodeIncomingForeignKey_encode {incoming : IncomingForeignKeyRules} (h : incoming.Durable)
    (hparts : incoming.parentKeyParts ≠ [])
    (hlen : (encodeIncomingForeignKey incoming).length < 2 ^ 32) :
    decodeIncomingForeignKey (encodeIncomingForeignKey incoming) = .ok incoming := by
  obtain ⟨id, childTable, childPrimaryIndex, parentIndex, parts⟩ := incoming
  obtain ⟨hid, hchildTable, hchildIndex, hparentIndex, hdurable⟩ := h
  unfold decodeIncomingForeignKey
  unfold encodeIncomingForeignKey at hlen ⊢
  have hids : ∀ rest, foldlM IncomingFields.step ⟨none, none, none, none, []⟩ ((1, id.bytes) ::
      (2, childTable.bytes) :: (3, childPrimaryIndex.bytes) :: (5, parentIndex.bytes) :: rest) =
        foldlM IncomingFields.step
          ⟨some id, some childTable, some childPrimaryIndex, some parentIndex, []⟩ rest := by
    simp [IncomingFields.step, setOnce, uuidBytes_bytes, hid, hchildTable, hchildIndex, hparentIndex]
  rw [readFields_written hlen, hids,
    foldlM_push (fun (s : IncomingFields) l => { s with parentKeyParts := s.parentKeyParts ++ l })
      (fun s => by simp) (fun s x l => by simp) (fun _ _ => rfl)
      fun part hmem => decodeKeyPart_encode (hdurable part hmem), ok_bind]
  dsimp only
  rw [nil_append, require, if_pos hparts]
  rfl

variable {rules : RowRules}

/-- What `validate` says about the lists of the rules. -/
theorem RowRules.validate_parts (h : rules.validate = .ok ()) :
    (∀ index ∈ rules.indexes, index.parts ≠ [] ∧ (index.parts.map KeyPartRules.column).Nodup) ∧
      (∀ foreignKey ∈ rules.foreignKeys, foreignKey.keyParts ≠ []) ∧
      ∀ incoming ∈ rules.incomingForeignKeys, incoming.parentKeyParts ≠ [] := by
  simp only [RowRules.validate, bind_eq_ok_iff, require_eq_ok_iff] at h
  obtain ⟨-, -, -, -, -, ⟨-, hindexes⟩, -, hforeign, -, hincoming⟩ := h
  exact ⟨fun index hmem => ⟨(hindexes index hmem).1, (hindexes index hmem).2.1⟩,
    fun foreignKey hmem => (hforeign foreignKey hmem).1,
    fun incoming hmem => (hincoming incoming hmem).1⟩

theorem RowRules.decode_encode (h : rules.Durable) (hvalid : rules.validate = .ok ())
    (hlen : rules.encode.length < 2 ^ 32) :
    RowRules.decode rules.encode = .ok rules := by
  obtain ⟨hindexes, hforeign, hincoming⟩ := RowRules.validate_parts hvalid
  obtain ⟨hfields, hshort⟩ := short_of_versioned (e := rules.fields) hlen
  obtain ⟨table, revision, primaryIndex, storage, keyParts, indexes, foreignKeys, incomings⟩ := rules
  have hids : [((1 : U8), table.bytes), (2, revision.bytes), (3, primaryIndex.bytes),
      (4, [storage.toU8])].foldlM RuleFields.step ⟨none, none, none, none, [], [], [], []⟩ =
        .ok ⟨some table, some revision, some primaryIndex, some storage, [], [], [], []⟩ := by
    simp [RuleFields.step, setOnce, uuidBytes_bytes, h.table, h.schemaRevision, h.primaryIndex,
      singleByte, orFault, TableStorage.fromU8_toU8]
  unfold RowRules.decode
  rw [RowRules.encode, versioned, if_pos rfl, ok_bind, readFields_written hfields, RowRules.fields,
    foldlM_append, hids, ok_bind, foldlM_append,
    foldlM_push (fun (s : RuleFields) l => { s with keyParts := s.keyParts ++ l })
      (fun s => by simp) (fun s x l => by simp) (fun _ _ => rfl)
      fun part hmem => decodeKeyPart_encode (h.keyParts part hmem), ok_bind, foldlM_append,
    foldlM_push (fun (s : RuleFields) l => { s with indexes := s.indexes ++ l })
      (fun s => by simp) (fun s x l => by simp) (fun _ _ => rfl) fun index hmem =>
        decodeIndexRules_encode (h.indexes index hmem) (hindexes index hmem)
          (hshort 6 _ (by simp [RowRules.fields]; exact ⟨index, hmem, rfl⟩)), ok_bind, foldlM_append,
    foldlM_push (fun (s : RuleFields) l => { s with foreignKeys := s.foreignKeys ++ l })
      (fun s => by simp) (fun s x l => by simp) (fun _ _ => rfl) fun foreignKey hmem =>
        decodeForeignKey_encode (h.foreignKeys foreignKey hmem) (hforeign foreignKey hmem)
          (hshort 7 _ (by simp [RowRules.fields]; exact ⟨foreignKey, hmem, rfl⟩)), ok_bind,
    foldlM_push (fun (s : RuleFields) l =>
        { s with incomingForeignKeys := s.incomingForeignKeys ++ l })
      (fun s => by simp) (fun s x l => by simp) (fun _ _ => rfl) fun incoming hmem =>
        decodeIncomingForeignKey_encode (h.incomingForeignKeys incoming hmem)
          (hincoming incoming hmem)
          (hshort 8 _ (by simp [RowRules.fields]; exact ⟨incoming, hmem, rfl⟩)), ok_bind]
  simp only [nil_append, orMissing, orFault, ok_bind, hvalid]

/-! ## Rows -/

theorem decodeColumnValue_encode {column : ColumnId} (h : RandomUuid column) (value : StoredValue)
    (hlen : (encodeColumnValue column value).length < 2 ^ 32) :
    decodeColumnValue (encodeColumnValue column value) = .ok (column, value) := by
  have hcolumn : ColumnValueFields.step ⟨none, none⟩ (1, column.bytes) =
      .ok ⟨some column, none⟩ :=
    setOnce_read (uuidBytes_bytes h) _
  have hvalue : ColumnValueFields.step ⟨some column, none⟩ (2, value.encode) =
      .ok ⟨some column, some value⟩ :=
    setOnce_read (StoredValue.decode_encode value) _
  unfold decodeColumnValue
  rw [encodeColumnValue_eq] at hlen ⊢
  rw [readFields_written hlen, foldlM_cons, hcolumn, ok_bind, foldlM_cons, hvalue, ok_bind]
  rfl

theorem decodeRowImage_encode (h : row.Durable) (hne : row.values ≠ [])
    (hlen : (encodeRowImage row).length < 2 ^ 32) :
    decodeRowImage (encodeRowImage row) = .ok row := by
  obtain ⟨hfields, hshort⟩ := short_of_versioned hlen
  have hread : ∀ pair ∈ row.values,
      decodeColumnValue (encodeColumnValue pair.1 pair.2) = .ok pair := fun pair hmem =>
    decodeColumnValue_encode (h.columns pair hmem) _
      (hshort 4 _ (mem_map.mpr ⟨pair, hmem, rfl⟩))
  unfold decodeRowImage
  rw [encodeRowImage, versioned, if_pos rfl, ok_bind, readFields_written hfields,
    foldlM_push (fun values l => values ++ l) (fun s => by simp) (fun s x l => by simp)
      (fun _ _ => rfl) hread, ok_bind, nil_append, validateRowValues, require, if_pos hne, ok_bind,
    require, if_pos h.nodup, ok_bind]

/-! ## Changes -/

theorem RowDelta.decode_encode (h : delta.Durable)
    (hbefore : ∀ row ∈ delta.before, row.values ≠ [])
    (hafter : ∀ row ∈ delta.after, row.values ≠ []) (hlen : delta.encode.length < 2 ^ 32) :
    RowDelta.decode delta.encode = .ok delta := by
  obtain ⟨hfields, hshort⟩ := short_of_versioned (e := delta.fields) hlen
  obtain ⟨before, after⟩ := delta
  have hfirst : (before.toList.map fun row => ((1 : U8), encodeRowImage row)).foldlM RowDelta.step
      ⟨none, none⟩ = .ok ⟨before, none⟩ := by
    cases before with
    | none => rfl
    | some row =>
      change (decodeRowImage (encodeRowImage row) >>= _) >>= _ = _
      rw [decodeRowImage_encode (h.1 row rfl) (hbefore row rfl)
        (hshort 1 _ (by simp [RowDelta.fields]))]
      rfl
  have hsecond : (after.toList.map fun row => ((2 : U8), encodeRowImage row)).foldlM RowDelta.step
      ⟨before, none⟩ = .ok ⟨before, after⟩ := by
    cases after with
    | none => rfl
    | some row =>
      change (decodeRowImage (encodeRowImage row) >>= _) >>= _ = _
      rw [decodeRowImage_encode (h.2 row rfl) (hafter row rfl)
        (hshort 2 _ (by simp [RowDelta.fields]))]
      rfl
  unfold RowDelta.decode
  rw [RowDelta.encode, versioned, if_pos rfl, ok_bind, readFields_written hfields, RowDelta.fields,
    foldlM_append, hfirst, ok_bind, hsecond]

/-- A row with a key is not empty. -/
theorem RowRules.values_ne_nil (hvalid : rules.validate = .ok ()) {key : Key}
    (hkey : rules.rowKey row = .ok key) : row.values ≠ [] := by
  intro hempty
  simp only [RowRules.validate, bind_eq_ok_iff, require_eq_ok_iff] at hvalid
  obtain ⟨-, hparts, -⟩ := hvalid
  obtain ⟨images, himages, -⟩ := RowRules.rowKey_eq_ok_iff.mp hkey
  obtain ⟨part, rest, hcons⟩ := exists_cons_of_ne_nil hparts
  rw [RowRules.keyImages, hcons, mapM_cons] at himages
  obtain ⟨image, himage, -⟩ := of_bind himages
  obtain ⟨value, hvalue, -⟩ := of_bind himage
  rw [orFault_eq_ok_iff, Row.value, hempty] at hvalue
  cases hvalue

/-- What `validate_structure` says about a table, for its frame. -/
theorem TableChanges.rows_ne_nil (h : table.validateStructure = .ok ()) :
    table.rules.validate = .ok () ∧ ∀ delta ∈ table.rows,
      (∀ row ∈ delta.before, row.values ≠ []) ∧ ∀ row ∈ delta.after, row.values ≠ [] := by
  obtain ⟨hbefore, hafter⟩ := TableChanges.valid_of_structure h
  obtain ⟨u, hvalid, -⟩ := of_bind h
  have hrows : ∀ rows : List Row, (rows ≠ [] → validateRows table.rules rows = .ok ()) →
      ∀ row ∈ rows, row.values ≠ [] := by
    intro rows hrows row hmem
    obtain ⟨-, -, -, hapart⟩ := validateRows_eq_ok_iff.mp (hrows (ne_nil_of_mem hmem))
    obtain ⟨⟨key, hkey⟩, -, -⟩ := hapart.encodes row hmem
    exact RowRules.values_ne_nil hvalid hkey
  refine ⟨hvalid, fun delta hdelta => ⟨fun row hrow => ?_, fun row hrow => ?_⟩⟩
  · exact hrows _ hbefore row (mem_filterMap.mpr ⟨delta, hdelta, hrow⟩)
  · exact hrows _ hafter row (mem_filterMap.mpr ⟨delta, hdelta, hrow⟩)

theorem TableChanges.decode_encode (h : table.Durable) (hvalid : table.validateStructure = .ok ())
    (hlen : table.encode.length < 2 ^ 32) : TableChanges.decode table.encode = .ok table := by
  obtain ⟨hvalidRules, hne⟩ := TableChanges.rows_ne_nil hvalid
  obtain ⟨hfields, hshort⟩ := short_of_versioned (e := table.fields) hlen
  have hfirst : TableFields.step ⟨none, []⟩ (1, table.rules.encode) =
      .ok ⟨some table.rules, []⟩ :=
    setOnce_read (RowRules.decode_encode h.1 hvalidRules (hshort 1 _ mem_cons_self)) _
  have hread : ∀ delta ∈ table.rows, RowDelta.decode delta.encode = .ok delta := fun delta hmem =>
    RowDelta.decode_encode (h.2 delta hmem) (hne delta hmem).1 (hne delta hmem).2
      (hshort 2 _ (mem_cons_of_mem _ (mem_map.mpr ⟨delta, hmem, rfl⟩)))
  unfold TableChanges.decode
  rw [TableChanges.encode, versioned, if_pos rfl, ok_bind, readFields_written hfields,
    TableChanges.fields, foldlM_cons, hfirst, ok_bind,
    foldlM_push (fun (s : TableFields) l => { s with rows := s.rows ++ l }) (fun s => by simp)
      (fun s x l => by simp) (fun _ _ => rfl) hread, ok_bind]
  simp only [nil_append, orMissing, orFault, ok_bind, hvalid]

/-- The budget of a statement is checked with the length of its frame. -/
theorem validateBudget_eq_ok
    (h : validateBudget (fun rules => rules.encode.length) changes = .ok ()) :
    changes.budgetBytes = .ok changes.encode.length ∧
      changes.encode.length ≤ maxRowOperationBytes ∧
      (changes.map fun table => table.rows.length).sum ≤ maxCapturedChanges := by
  unfold validateBudget at h
  split at h
  · cases h
  · rename_i hcount
    rw [← RowChanges.budgetBytes] at h
    cases hbytes : changes.budgetBytes with
    | error error =>
      rw [hbytes] at h
      cases h
    | ok bytes =>
      rw [hbytes] at h
      dsimp only at h
      split at h
      · cases h
      · rename_i hle
        cases RowChanges.budgetBytes_eq_ok hbytes
        exact ⟨rfl, Nat.not_lt.mp hle, Nat.not_lt.mp hcount⟩

/-- A durable statement that can be lowered is read back from its frame. -/
theorem RowChanges.decode_encode (h : changes.Durable)
    (hbudget : validateBudget (fun rules => rules.encode.length) changes = .ok ())
    (hvalid : validateStructure changes = .ok ()) :
    RowChanges.decode changes.encode = .ok changes := by
  obtain ⟨hbytes, hmax, hcount⟩ := validateBudget_eq_ok hbudget
  have hvalid' := hvalid
  obtain ⟨u, hne, htables⟩ := of_bind hvalid'
  rw [require_eq_ok_iff] at hne
  have htables := forM_eq_ok_iff.mp htables
  obtain ⟨hfields, hshort⟩ :=
    short_of_versioned (Nat.lt_of_le_of_lt hmax (show maxRowOperationBytes < 2 ^ 32 by decide))
  have hread : ∀ table ∈ changes, TableChanges.decode table.encode = .ok table := fun table hmem =>
    TableChanges.decode_encode (h table hmem) (htables table hmem)
      (hshort 1 _ (mem_map.mpr ⟨table, hmem, rfl⟩))
  unfold RowChanges.decode
  rw [require, if_pos hmax, ok_bind, RowChanges.encode, versioned, if_pos rfl, ok_bind,
    readFields_written hfields,
    foldlM_push (fun tables l => tables ++ l) (fun s => by simp) (fun s x l => by simp)
      (fun _ _ => rfl) hread, ok_bind, nil_append, require, if_pos hne.1, ok_bind,
      hvalid, ok_bind, RowChanges.validateBudgetCodec,
    require, if_pos hcount, ok_bind, hbytes, ok_bind, require, if_pos hmax]
  rfl

/-! ## What decoders accept -/

theorem uuidBytes_random (value : Bytes) : Yields RandomUuid (uuidBytes value) := by
  unfold uuidBytes
  split
  · exact .error _
  · split
    · exact .ok ‹_›
    · exact .error _

theorem require_yields {ε : Type} {condition : Prop} [Decidable condition] {error : ε} :
    Yields (fun _ => condition) (require condition error) :=
  fun _ h => require_eq_ok_iff.mp h

variable {α : Type} {P : α → Prop}

theorem orFault_yields {ε : Type} {fault : ε} {slot : Option α} :
    Yields (fun a => slot = some a) (orFault fault slot) :=
  fun _ h => orFault_eq_ok_iff.mp h

theorem forall_mem_none : ∀ x ∈ (none : Option α), P x := by
  intro x hx
  cases hx

theorem forall_mem_some {x : α} (h : P x) : ∀ y ∈ some x, P y := by
  intro y hy
  cases hy
  exact h

/-- A list of the state gets one more entry. -/
theorem forall_mem_push {l : List α} {x : α} (h : ∀ y ∈ l, P y) (hx : P x) :
    ∀ y ∈ l ++ [x], P y := by
  intro y hy
  obtain hmem | hmem := mem_append.mp hy
  · exact h y hmem
  · rw [mem_singleton.mp hmem]
    exact hx

theorem orMissing_yields {tag : U8} {slot : Option α} (h : ∀ a ∈ slot, P a) :
    Yields P (orMissing tag slot) :=
  orFault_yields.mono fun a ha => h a ha

/-- A slot holds what was read for it. -/
theorem setOnce_yields {σ : Type} {Q : σ → Prop} {read : Except RowCodecError α} {slot : Option α}
    {put : Option α → σ} (h : Yields P read)
    (hput : ∀ filled, (∀ a ∈ filled, P a) → Q (put filled)) :
    Yields Q (do
      let filled ← setOnce slot (← read)
      Except.ok (put filled)) := by
  refine h.bind fun a ha => ?_
  unfold setOnce
  split
  · exact .error _
  · exact .ok (hput (some a) (forall_mem_some ha))

theorem decodeKeyPart_durable (frame : Bytes) :
    Yields KeyPartRules.Durable (decodeKeyPart frame) := by
  refine (readFields_yields (P := fun s : KeyPartFields => ∀ id ∈ s.column, RandomUuid id)
    forall_mem_none fun s entry hs => ?_).bind fun s hs => ?_
  · refine .ite ?_ (.ite ?_ (.ite ?_ (.ok hs)))
    · exact setOnce_yields (uuidBytes_random _) fun _ hid => hid
    · exact .skip fun _ => .skip fun _ => .skip fun _ => .ok hs
    · exact .skip fun _ => .skip fun _ => .skip fun _ => .ok hs
  · refine (orMissing_yields hs).bind fun column hcolumn => .skip fun affinity => .skip fun flags => ?_
    exact require_yields.bind fun _ halias => .ok ⟨hcolumn, halias⟩

theorem decodeIndexRules_durable (frame : Bytes) :
    Yields IndexRules.Durable (decodeIndexRules frame) := by
  refine (readFields_yields (P := fun s : IndexFields =>
    (∀ id ∈ s.index, RandomUuid id) ∧ ∀ part ∈ s.parts, part.Durable)
    ⟨forall_mem_none, forall_mem_nil _⟩ fun s entry ⟨hindex, hparts⟩ => ?_).bind fun s hs => ?_
  · refine .ite ?_ (.ite ?_ (.ok ⟨hindex, hparts⟩))
    · exact setOnce_yields (uuidBytes_random _) fun _ hid => ⟨hid, hparts⟩
    · exact (decodeKeyPart_durable _).bind fun _ hpart => .ok ⟨hindex, forall_mem_push hparts hpart⟩
  · exact .skip fun _ => (orMissing_yields hs.1).bind fun _ hid => .ok ⟨hid, hs.2⟩

theorem decodeForeignKeyPart_durable (frame : Bytes) :
    Yields ForeignKeyPartRules.Durable (decodeForeignKeyPart frame) := by
  refine (readFields_yields (P := fun s : ForeignKeyPartFields =>
    (∀ id ∈ s.childColumn, RandomUuid id) ∧ ∀ part ∈ s.parent, part.Durable)
    ⟨forall_mem_none, forall_mem_none⟩ fun s entry ⟨hcolumn, hpart⟩ => ?_).bind fun s hs => ?_
  · refine .ite ?_ (.ite ?_ (.ok ⟨hcolumn, hpart⟩))
    · exact setOnce_yields (uuidBytes_random _) fun _ hid => ⟨hid, hpart⟩
    · exact setOnce_yields (decodeKeyPart_durable _) fun _ hparent => ⟨hcolumn, hparent⟩
  · exact (orMissing_yields hs.1).bind fun _ hchild =>
      (orMissing_yields hs.2).bind fun _ hparent => .ok ⟨hchild, hparent⟩

/-- What the slots of `decode_foreign_key` hold. -/
structure ForeignKeyFields.Durable (s : ForeignKeyFields) : Prop where
  id : ∀ id ∈ s.id, RandomUuid id
  parentTable : ∀ id ∈ s.parentTable, RandomUuid id
  parentIndex : ∀ id ∈ s.parentIndex, RandomUuid id
  keyParts : ∀ part ∈ s.keyParts, part.Durable

theorem decodeForeignKey_durable (frame : Bytes) :
    Yields ForeignKeyRules.Durable (decodeForeignKey frame) := by
  refine (readFields_yields (P := ForeignKeyFields.Durable)
    ⟨forall_mem_none, forall_mem_none, forall_mem_none, forall_mem_nil _⟩
    fun s entry h => ?_).bind fun s h => ?_
  · refine .ite ?_ (.ite ?_ (.ite ?_ (.ite ?_ (.ok h))))
    · exact setOnce_yields (uuidBytes_random _) fun _ hid => { h with id := hid }
    · exact setOnce_yields (uuidBytes_random _) fun _ hid => { h with parentTable := hid }
    · exact setOnce_yields (uuidBytes_random _) fun _ hid => { h with parentIndex := hid }
    · exact (decodeForeignKeyPart_durable _).bind fun _ hpart =>
        .ok { h with keyParts := forall_mem_push h.keyParts hpart }
  · exact .skip fun _ => (orMissing_yields h.id).bind fun _ hid =>
      (orMissing_yields h.parentTable).bind fun _ htable =>
        (orMissing_yields h.parentIndex).bind fun _ hindex => .ok ⟨hid, htable, hindex, h.keyParts⟩

/-- What the slots of `decode_incoming_foreign_key` hold. -/
structure IncomingFields.Durable (s : IncomingFields) : Prop where
  id : ∀ id ∈ s.id, RandomUuid id
  childTable : ∀ id ∈ s.childTable, RandomUuid id
  childPrimaryIndex : ∀ id ∈ s.childPrimaryIndex, RandomUuid id
  parentIndex : ∀ id ∈ s.parentIndex, RandomUuid id
  parentKeyParts : ∀ part ∈ s.parentKeyParts, part.Durable

theorem decodeIncomingForeignKey_durable (frame : Bytes) :
    Yields IncomingForeignKeyRules.Durable (decodeIncomingForeignKey frame) := by
  refine (readFields_yields (P := IncomingFields.Durable)
    ⟨forall_mem_none, forall_mem_none, forall_mem_none, forall_mem_none, forall_mem_nil _⟩
    fun s entry h => ?_).bind fun s h => ?_
  · refine .ite ?_ (.ite ?_ (.ite ?_ (.ite ?_ (.ite ?_ (.ok h)))))
    · exact setOnce_yields (uuidBytes_random _) fun _ hid => { h with id := hid }
    · exact setOnce_yields (uuidBytes_random _) fun _ hid => { h with childTable := hid }
    · exact setOnce_yields (uuidBytes_random _) fun _ hid => { h with childPrimaryIndex := hid }
    · exact setOnce_yields (uuidBytes_random _) fun _ hid => { h with parentIndex := hid }
    · exact (decodeKeyPart_durable _).bind fun _ hpart =>
        .ok { h with parentKeyParts := forall_mem_push h.parentKeyParts hpart }
  · exact .skip fun _ => (orMissing_yields h.id).bind fun _ hid =>
      (orMissing_yields h.childTable).bind fun _ htable =>
        (orMissing_yields h.childPrimaryIndex).bind fun _ hchild =>
          (orMissing_yields h.parentIndex).bind fun _ hindex =>
            .ok ⟨hid, htable, hchild, hindex, h.parentKeyParts⟩

/-- What the slots of `decode_row_rules` hold. -/
structure RuleFields.Durable (s : RuleFields) : Prop where
  table : ∀ id ∈ s.table, RandomUuid id
  schemaRevision : ∀ id ∈ s.schemaRevision, RandomUuid id
  primaryIndex : ∀ id ∈ s.primaryIndex, RandomUuid id
  keyParts : ∀ part ∈ s.keyParts, part.Durable
  indexes : ∀ index ∈ s.indexes, index.Durable
  foreignKeys : ∀ foreignKey ∈ s.foreignKeys, foreignKey.Durable
  incomingForeignKeys : ∀ incoming ∈ s.incomingForeignKeys, incoming.Durable

theorem RuleFields.Durable.step {s : RuleFields} (h : s.Durable) (entry : U8 × Bytes) :
    Yields RuleFields.Durable (s.step entry) := by
  refine .ite ?_ (.ite ?_ (.ite ?_ (.ite ?_ (.ite ?_ (.ite ?_ (.ite ?_ (.ite ?_
    (.ite (.error _) (.ok h)))))))))
  · exact setOnce_yields (uuidBytes_random _) fun _ hid => { h with table := hid }
  · exact setOnce_yields (uuidBytes_random _) fun _ hid => { h with schemaRevision := hid }
  · exact setOnce_yields (uuidBytes_random _) fun _ hid => { h with primaryIndex := hid }
  · exact .skip fun _ => .skip fun _ => .skip fun _ => .ok { h with }
  · exact (decodeKeyPart_durable _).bind fun _ hpart =>
      .ok { h with keyParts := forall_mem_push h.keyParts hpart }
  · exact (decodeIndexRules_durable _).bind fun _ hindex =>
      .ok { h with indexes := forall_mem_push h.indexes hindex }
  · exact (decodeForeignKey_durable _).bind fun _ hforeign =>
      .ok { h with foreignKeys := forall_mem_push h.foreignKeys hforeign }
  · exact (decodeIncomingForeignKey_durable _).bind fun _ hincoming =>
      .ok { h with incomingForeignKeys := forall_mem_push h.incomingForeignKeys hincoming }

theorem RowRules.decode_durable (frame : Bytes) :
    Yields RowRules.Durable (RowRules.decode frame) := by
  refine .skip fun rest => (readFields_yields (P := RuleFields.Durable)
    ⟨forall_mem_none, forall_mem_none, forall_mem_none, forall_mem_nil _, forall_mem_nil _,
      forall_mem_nil _, forall_mem_nil _⟩ fun s entry h => h.step entry).bind fun s h => ?_
  exact (orMissing_yields h.table).bind fun _ htable =>
    (orMissing_yields h.schemaRevision).bind fun _ hrevision =>
      (orMissing_yields h.primaryIndex).bind fun _ hindex => .skip fun _ => .skip fun _ =>
        .ok ⟨htable, hrevision, hindex, h.keyParts, h.indexes, h.foreignKeys,
          h.incomingForeignKeys⟩

theorem decodeColumnValue_random (frame : Bytes) :
    Yields (fun pair => RandomUuid pair.1) (decodeColumnValue frame) := by
  refine (readFields_yields (P := fun s : ColumnValueFields => ∀ id ∈ s.column, RandomUuid id)
    forall_mem_none fun s entry hs => ?_).bind fun s hs => ?_
  · refine .ite ?_ (.ite ?_ (.ok hs))
    · exact setOnce_yields (uuidBytes_random _) fun _ hid => hid
    · exact .skip fun _ => .skip fun _ => .ok hs
  · exact (orMissing_yields hs).bind fun _ hcolumn => .skip fun _ => .ok hcolumn

theorem decodeRowImage_durable (frame : Bytes) : Yields Row.Durable (decodeRowImage frame) := by
  refine .skip fun rest => (readFields_yields
    (P := fun values : List (ColumnId × StoredValue) => ∀ pair ∈ values, RandomUuid pair.1)
    (forall_mem_nil _) fun values entry hvalues => ?_).bind fun values hvalues => ?_
  · exact .ite ((decodeColumnValue_random _).bind fun _ hpair => .ok (forall_mem_push hvalues hpair))
      (.ok hvalues)
  · exact .skip fun _ => require_yields.bind fun _ hnodup => .ok ⟨hvalues, hnodup⟩

theorem RowDelta.decode_durable (frame : Bytes) :
    Yields RowDelta.Durable (RowDelta.decode frame) := by
  refine .skip fun rest => readFields_yields ⟨forall_mem_none, forall_mem_none⟩
    fun s entry ⟨hbefore, hafter⟩ => .ite ?_ (.ite ?_ (.ok ⟨hbefore, hafter⟩))
  · exact setOnce_yields (decodeRowImage_durable _) fun _ hrow => ⟨hrow, hafter⟩
  · exact setOnce_yields (decodeRowImage_durable _) fun _ hrow => ⟨hbefore, hrow⟩

theorem TableChanges.decode_durable (frame : Bytes) :
    Yields TableChanges.Durable (TableChanges.decode frame) := by
  refine .skip fun rest => (readFields_yields (P := fun s : TableFields =>
    (∀ rules ∈ s.rules, rules.Durable) ∧ ∀ delta ∈ s.rows, delta.Durable)
    ⟨forall_mem_none, forall_mem_nil _⟩ fun s entry ⟨hrules, hrows⟩ => ?_).bind fun s hs => ?_
  · refine .ite ?_ (.ite ?_ (.ok ⟨hrules, hrows⟩))
    · exact setOnce_yields (RowRules.decode_durable _) fun _ hdecoded => ⟨hdecoded, hrows⟩
    · exact (RowDelta.decode_durable _).bind fun _ hdelta => .ok ⟨hrules, forall_mem_push hrows hdelta⟩
  · exact (orMissing_yields hs.1).bind fun _ hrules => .skip fun _ => .ok ⟨hrules, hs.2⟩

/-- What is read from a frame can be read back from the frame it is written to. -/
theorem RowChanges.decode_durable (frame : Bytes) :
    Yields RowChanges.Durable (RowChanges.decode frame) := by
  refine .skip fun _ => .skip fun rest => (readFields_yields (P := RowChanges.Durable)
    (forall_mem_nil _) fun tables entry htables => ?_).bind fun tables htables => ?_
  · exact .ite ((TableChanges.decode_durable _).bind fun _ htable =>
      .ok (forall_mem_push htables htable)) (.ok htables)
  · exact .skip fun _ => .skip fun _ => .skip fun _ => .ok htables

end Homebase.Multilite
