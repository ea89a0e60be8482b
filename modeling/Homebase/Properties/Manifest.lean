import Homebase.Refine.Capture

set_option autoImplicit false

/-!
# Transaction manifests survive the authority

A transaction that compiles, captured or decoded, is read back from its manifest and from every
batch that carries its mutations.  So the limits that are checked when it is compiled are those a
replica checks, and no two transactions share a batch.
-/

namespace Homebase.Multilite

open Foundation Homebase.Core List

/-! ## Operations -/

theorem orRow_eq_ok_iff {α : Type} {x : Except RowError α} {a : α} :
    orRow x = .ok a ↔ x = .ok a := by
  cases x <;> simp [orRow]

variable {changes : RowChanges} {lowered : RowHomebaseOp}

/-- What lowering checks about the changes of a statement. -/
theorem operationToHomebase_eq_ok (h : operationToHomebase changes = .ok lowered) :
    validateBudget (fun rules => rules.encode.length) changes = .ok () ∧
      validateStructure changes = .ok () := by
  obtain ⟨op, hop, -⟩ := of_bind h
  obtain ⟨u, hbudget, hop⟩ := of_bind (orRow_eq_ok_iff.mp hop)
  obtain ⟨u', hvalid, -⟩ := of_bind hop
  refine ⟨hbudget, ?_⟩
  cases hresult : validateStructure changes with
  | error error =>
    rw [hresult] at hvalid
    cases hvalid
  | ok v => rfl

theorem decodeOperation_encode (h : changes.Durable)
    (hlowered : operationToHomebase changes = .ok lowered) :
    decodeOperation (encodeOperation changes) = .ok changes := by
  obtain ⟨hbudget, hvalid⟩ := operationToHomebase_eq_ok hlowered
  rw [encodeOperation, decodeOperation, if_neg (by decide), if_pos rfl,
    RowChanges.decode_encode h hbudget hvalid]

theorem decodeOperation_durable (frame : Bytes) :
    Yields RowChanges.Durable (decodeOperation frame) := by
  unfold decodeOperation
  split
  · exact .error _
  · refine .ite (.error _) ?_
    split
    · exact .error _
    · refine .ite ?_ (.error _)
      split
      · exact .ok (RowChanges.decode_durable _ _ ‹_›)
      · exact .error _

theorem compileOperation_eq_ok {operation : CompiledOperation}
    (h : compileOperation changes = .ok operation) :
    operation.logical = changes ∧ operationToHomebase changes = .ok operation.homebase := by
  obtain ⟨homebase, hhomebase, h⟩ := of_bind h
  cases h
  exact ⟨rfl, hhomebase⟩

namespace MultiliteTransaction

variable {transaction : MultiliteTransaction} {id : TransactionId}

theorem transactionUuid_random (value : Bytes) : Yields RandomUuid (transactionUuid value) := by
  unfold transactionUuid
  split
  · exact .error _
  · split
    · exact .ok ‹_›
    · exact .error _

/-- What capture and decoding build: a manifest has an id, an operation or more, and its
operations can be read back. -/
structure Durable (transaction : MultiliteTransaction) : Prop where
  id : RandomUuid transaction.id
  nonempty : transaction.operations ≠ []
  operations : ∀ changes ∈ transaction.operations, changes.Durable

/-! ## Frames -/

/-- The fields of a manifest, after its version. -/
def fields (transaction : MultiliteTransaction) : List (U8 × Bytes) :=
  (1, transaction.id.bytes) ::
    transaction.operations.map fun changes => (2, encodeOperation changes)

variable {operations : List RowChanges}

/-- The loop of `encode_with_limits` appends the fields, each within the limit. -/
theorem foldlM_encodeStep {maxBytes : Nat} {written frame : Bytes}
    (h : operations.foldlM (encodeStep maxBytes) written = .ok frame) :
    frame = written ++ Writer.fields (operations.map fun changes => (2, encodeOperation changes)) ∧
      (operations ≠ [] → frame.length ≤ maxBytes) := by
  induction operations generalizing written with
  | nil =>
    cases h
    exact ⟨(append_nil _).symm, fun hne => absurd rfl hne⟩
  | cons changes operations ih =>
    rw [foldlM_cons] at h
    obtain ⟨next, hnext, h⟩ := of_bind h
    unfold encodeStep at hnext
    dsimp only at hnext
    split at hnext
    · cases hnext
    · split at hnext
      · cases hnext
      · cases hnext
        obtain ⟨hframe, hmax⟩ := ih h
        refine ⟨?_, fun _ => ?_⟩
        · rw [hframe, append_assoc]
          rfl
        · cases operations with
          | nil =>
            rw [hframe]
            rename_i hle _
            simp only [map_nil, Writer.fields, flatMap_nil, append_nil,
              length_append, Writer.length_field]
            omega
          | cons first rest => exact hmax (cons_ne_nil _ _)

theorem encode_eq_ok {frame : Bytes} (h : transaction.encode = .ok frame)
    (hne : transaction.operations ≠ []) :
    frame = 1 :: Writer.fields transaction.fields ∧ frame.length ≤ maxTransactionFrameBytes ∧
      transaction.operations.length ≤ maxTransactionOperations := by
  unfold encode encodeWithLimits at h
  split at h
  · cases h
  · rename_i hcount
    obtain ⟨hframe, hmax⟩ := foldlM_encodeStep h
    exact ⟨hframe, hmax hne, Nat.not_lt.mp hcount⟩

/-- The loop of `decode_with_limits` pushes the operations, as long as there is room. -/
theorem foldlM_operations {maxOperations : Nat} {s : Fields}
    (hroom : s.operations.length + operations.length ≤ maxOperations)
    (h : ∀ changes ∈ operations, decodeOperation (encodeOperation changes) = .ok changes) :
    (operations.map fun changes => ((2 : U8), encodeOperation changes)).foldlM
        (Fields.step maxOperations) s =
      .ok { s with operations := s.operations ++ operations } := by
  induction operations generalizing s with
  | nil =>
    rw [append_nil]
    rfl
  | cons changes operations ih =>
    rw [length_cons] at hroom
    have hstep : Fields.step maxOperations s (2, encodeOperation changes) =
        .ok { s with operations := s.operations ++ [changes] } := by
      change (if s.operations.length = maxOperations then _ else _) = _
      rw [if_neg (by omega), h changes mem_cons_self]
    rw [map_cons, foldlM_cons, hstep, ok_bind,
      ih (by simp only [length_append, length_singleton]; omega)
        fun changes hmem => h changes (mem_cons_of_mem _ hmem)]
    simp only [append_assoc, singleton_append]

/-- A manifest within the limits is read back. -/
theorem decode_encode (hdurable : transaction.Durable) {frame : Bytes}
    (hencode : transaction.encode = .ok frame)
    (hoperations : ∀ changes ∈ transaction.operations,
      decodeOperation (encodeOperation changes) = .ok changes) :
    decode frame = .ok transaction := by
  obtain ⟨hframe, hmax, hcount⟩ := encode_eq_ok hencode hdurable.nonempty
  have hfields : (Writer.fields transaction.fields).length < 2 ^ 32 := by
    rw [hframe, length_cons] at hmax
    unfold maxTransactionFrameBytes at hmax
    omega
  have hid : Fields.step maxTransactionOperations ⟨none, []⟩ (1, transaction.id.bytes) =
      .ok ⟨some transaction.id, []⟩ := by
    change (transactionUuid transaction.id.bytes >>= _) = _
    rw [transactionUuid, ByteArr.ofBytes_bytes]
    dsimp only
    rw [if_pos hdurable.id]
    rfl
  have hpush := foldlM_operations (s := ⟨some transaction.id, []⟩)
    (by simpa using hcount) hoperations
  unfold decode decodeWithLimits
  rw [if_neg (Nat.not_lt.mpr hmax), hframe]
  dsimp only
  rw [if_neg (by decide), readFields_written hfields, fields, foldlM_cons, hid, ok_bind, hpush,
    ok_bind, require, if_pos (by simpa using hdurable.nonempty), ok_bind]
  rfl

/-! ## Batches -/

variable {compiled : CompiledTransaction RowChanges}

/-- What assembling compiled operations gives: the manifest in front of their mutations, which is
what lowering the transaction gives. -/
theorem compileOperations_eq_ok {operations : List CompiledOperation}
    (hoperations : ∀ operation ∈ operations, compileOperation operation.logical = .ok operation)
    (h : compileOperations id operations = .ok compiled) :
    compiled.logical = ⟨id, operations.map CompiledOperation.logical⟩ ∧
      (∃ key value rest, encode compiled.logical = .ok value ∧
        compiled.mutations = .set key value :: rest) ∧
      ∃ lowered, toHomebase compiled.logical = .ok lowered ∧
        lowered.mutations = compiled.mutations := by
  obtain ⟨key, hkey, h⟩ := of_bind h
  obtain ⟨value, hvalue, h⟩ := of_bind h
  obtain ⟨u, houtput, h⟩ := of_bind h
  cases h
  have hlowered : (operations.map CompiledOperation.logical).mapM operationToHomebase =
      .ok (operations.map CompiledOperation.homebase) := by
    rw [mapM_map]
    exact mapM_eq_ok fun operation hmem => (compileOperation_eq_ok (hoperations operation hmem)).2
  refine ⟨rfl, ⟨key, value, _, hvalue, rfl⟩, ?_⟩
  rw [toHomebase, hkey, ok_bind, hvalue, ok_bind, houtput, ok_bind, hlowered, ok_bind]
  refine ⟨_, rfl, ?_⟩
  rw [flatMap_map]

theorem Fields.step_durable {s : Fields} (maxOperations : Nat) (entry : U8 × Bytes)
    (h : (∀ id ∈ s.id, RandomUuid id) ∧ ∀ changes ∈ s.operations, changes.Durable) :
    Yields (fun t : Fields => (∀ id ∈ t.id, RandomUuid id) ∧
      ∀ changes ∈ t.operations, changes.Durable) (s.step maxOperations entry) := by
  refine .ite ?_ (.ite (.ite (.error _) ?_) (.ok h))
  · exact (transactionUuid_random _).bind fun id hid =>
      .ite (.error _) (.ok ⟨forall_mem_some hid, h.2⟩)
  · split
    · exact .ok ⟨h.1, forall_mem_push h.2 (decodeOperation_durable _ _ ‹_›)⟩
    · exact .error _

/-- What is read from a frame can be read back from the frame it is written to. -/
theorem decode_durable (frame : Bytes) : Yields Durable (decode frame) := by
  refine .ite (.error _) ?_
  split
  · exact .error _
  · refine .ite (.error _) ((readFields_yields ⟨forall_mem_none, forall_mem_nil _⟩
      fun s entry => Fields.step_durable _ entry).bind fun s hs => ?_)
    exact require_yields.bind fun _ hne => orFault_yields.bind fun id hid =>
      .ok ⟨hs.1 id hid, hne, hs.2⟩

/-! ## Transactions -/

/-- `Uuid::new_v4` sets the version and the variant. -/
theorem random_newV4 (random : ByteArr 16) : RandomUuid (newV4 random) := by
  have hlen := random.length_eq
  simp only [RandomUuid, newV4, getD_eq_getElem?_getD, getElem?_set, length_set, hlen]
  simp
  omega

/-- `compile_row_changes`: the operation is compiled from what a statement reported, captured with
a catalog that was loaded. -/
def CapturedOperation (operation : CompiledOperation) : Prop :=
  ∃ rows catalog events changes, CatalogSnapshot.load rows = .ok catalog ∧
    RowChanges.fromCatalog catalog events = .ok (some changes) ∧
    compileOperation changes = .ok operation

/-- How compiled transactions are made: the fields of a transaction are private, so that it is
minted from captured operations, or decoded and compiled. -/
inductive Built : CompiledTransaction RowChanges → Prop
  | captured {operations : List CompiledOperation} {compiled : CompiledTransaction RowChanges}
      (hoperations : ∀ operation ∈ operations, CapturedOperation operation) (random : ByteArr 16)
      (h : fromCompiledOperations random operations = .ok compiled) : Built compiled
  | decoded {frame : Bytes} {transaction : MultiliteTransaction}
      {compiled : CompiledTransaction RowChanges} (hdecode : decode frame = .ok transaction)
      (h : transaction.compile = .ok compiled) : Built compiled

/-- However it was made, a compiled transaction is durable and assembled from what its operations
compile to. -/
theorem Built.assembled (h : Built compiled) :
    Durable compiled.logical ∧ ∃ id operations, compileOperations id operations = .ok compiled ∧
      ∀ operation ∈ operations, compileOperation operation.logical = .ok operation := by
  cases h with
  | captured hoperations random h =>
    rename_i operations
    unfold fromCompiledOperations at h
    split at h
    · cases h
    · rename_i hne
      have hcompiled : ∀ operation ∈ operations,
          compileOperation operation.logical = .ok operation ∧ operation.logical.Durable := by
        intro operation hmem
        obtain ⟨rows, catalog, events, changes, hload, hcaptured, hcompile⟩ :=
          hoperations operation hmem
        rw [(compileOperation_eq_ok hcompile).1]
        exact ⟨hcompile, RowChanges.fromCatalog_durable (CatalogSnapshot.load_decoded _ _ hload) _ _
          hcaptured changes rfl⟩
      refine ⟨?_, _, operations, h, fun operation hmem => (hcompiled operation hmem).1⟩
      rw [(compileOperations_eq_ok (fun operation hmem => (hcompiled operation hmem).1) h).1]
      exact ⟨random_newV4 random, by simpa using hne,
        forall_mem_map.mpr fun operation hmem => (hcompiled operation hmem).2⟩
  | decoded hdecode h =>
    rename_i transaction
    obtain ⟨operations, hoperations, h⟩ := of_bind h
    have hcompiled : ∀ operation ∈ operations, compileOperation operation.logical = .ok operation :=
      Yields.mapM (fun changes _ operation hcompile =>
        (compileOperation_eq_ok hcompile).1 ▸ hcompile) operations hoperations
    have hlogical : operations.map CompiledOperation.logical = transaction.operations := by
      rw [map_of_mapM (k := id) (fun changes operation hcompile =>
        (compileOperation_eq_ok hcompile).1) hoperations, map_id]
    refine ⟨?_, _, operations, h, hcompiled⟩
    rw [(compileOperations_eq_ok hcompiled h).1, hlogical]
    exact decode_durable _ _ hdecode

/-- The first mutation of a compiled transaction is its frame. -/
theorem Built.frame (h : Built compiled) :
    (∀ changes ∈ compiled.logical.operations, ∃ lowered, operationToHomebase changes = .ok lowered) ∧
      ∃ key frame rest, compiled.mutations = .set key frame :: rest ∧
        encode compiled.logical = .ok frame ∧ decode frame = .ok compiled.logical := by
  obtain ⟨hdurable, id, operations, hassembled, hcompiled⟩ := h.assembled
  obtain ⟨hlogical, ⟨key, frame, rest, hframe, hmutations⟩, -⟩ :=
    compileOperations_eq_ok hcompiled hassembled
  have hlowers : ∀ changes ∈ compiled.logical.operations,
      ∃ lowered, operationToHomebase changes = .ok lowered := by
    rw [hlogical]
    exact forall_mem_map.mpr fun operation hmem =>
      ⟨_, (compileOperation_eq_ok (hcompiled operation hmem)).2⟩
  refine ⟨hlowers, key, frame, rest, hmutations, hframe,
    decode_encode hdurable hframe fun changes hmem => ?_⟩
  obtain ⟨lowered, hlowered⟩ := hlowers changes hmem
  exact decodeOperation_encode (hdurable.operations changes hmem) hlowered

/-- A transaction that compiles is read back from its manifest and from every well-formed batch that
carries its mutations, the length its budget was checked with is that of its encoding, and no other
transaction lowers to the same mutations. -/
theorem survives_authority (compiled : CompiledTransaction RowChanges) (hbuilt : Built compiled) :
    (∃ frame, encode compiled.logical = .ok frame ∧ decode frame = .ok compiled.logical) ∧
      (∀ changes ∈ compiled.logical.operations,
        changes.budgetBytes = .ok changes.encode.length) ∧
      (∀ batch : OpenedBatch, batch.validate = .ok () → batch.mutations = compiled.mutations →
        fromHomebase batch = .ok compiled.logical) ∧
      ∀ compiled' : CompiledTransaction RowChanges, Built compiled' →
        compiled'.mutations = compiled.mutations → compiled'.logical = compiled.logical := by
  obtain ⟨hlowers, key, frame, rest, hmutations, hencode, hdecode⟩ := hbuilt.frame
  obtain ⟨-, id, operations, hassembled, hcompiled⟩ := hbuilt.assembled
  obtain ⟨-, -, lowered, hlowered, hsame⟩ := compileOperations_eq_ok hcompiled hassembled
  refine ⟨⟨frame, hencode, hdecode⟩, fun changes hmem => ?_, fun batch hvalid hcarries => ?_,
    fun compiled' hbuilt' hsame => ?_⟩
  · obtain ⟨op, hop⟩ := hlowers changes hmem
    exact (validateBudget_eq_ok (operationToHomebase_eq_ok hop).1).1
  · unfold fromHomebase
    rw [hvalid, hcarries, hmutations]
    dsimp only
    rw [hdecode, ok_bind, hlowered]
    dsimp only
    rw [require, if_pos (hmutations.symm.trans hsame.symm), ok_bind]
  · obtain ⟨-, key', frame', rest', hmutations', -, hdecode'⟩ := hbuilt'.frame
    rw [hmutations, hmutations'] at hsame
    cases hsame
    exact Except.ok.inj (hdecode'.symm.trans hdecode)

/-! ## One inserted row -/

namespace Inserting

/-- Ids with the bits of a random UUID. -/
def uuid (n : U8) : ByteArr 16 := ⟨[n, 0, 0, 0, 0, 0, 64, 0, 128, 0, 0, 0, 0, 0, 0, 0], rfl⟩

/-- `CREATE TABLE t (id INTEGER PRIMARY KEY, body TEXT)`, as the catalog keeps it. -/
def binding : CatalogRow where
  tableName := [116]
  tableId := (uuid 1).bytes
  definition :=
    { mutationId := uuid 8, tableId := uuid 1, schemaRevisionId := uuid 2, mode := .ordinary
      storage := .rowid
      columns := [⟨uuid 4, ⟨"INTEGER", []⟩, false⟩, ⟨uuid 5, ⟨"TEXT", []⟩, false⟩]
      primaryKey := ⟨uuid 3, .primary, [uuid 4]⟩
      uniqueConstraints := [], indexes := [], foreignKeys := [] }

/-- `INSERT INTO T VALUES (7, 'hi')`, as SQLite reports it. -/
def insertion : CapturedChange :=
  .insert ⟨[84], ⟨7, by decide⟩, [.integer ⟨7, by decide⟩, .text [104, 105]]⟩

/-- The changes that are captured. -/
def hello : RowChanges :=
  [⟨⟨uuid 1, uuid 2, uuid 3, .rowid, [⟨uuid 4, .integer, true⟩], [], [], []⟩,
    [⟨none, some ⟨[(uuid 4, .integer ⟨7, by decide⟩), (uuid 5, .text [104, 105])]⟩⟩]⟩]

def inserting : Except CompileError (CompiledTransaction RowChanges) := do
  let operation ← compileOperation hello
  fromCompiledOperations (.zero 16) [operation]

/-- The batch in which the first device submits these mutations. -/
def admitted (mutations : List (Mutation Bytes)) : OpenedBatch where
  admissionSeq := 1
  device := ByteArr.zero 16
  deviceSeq := 1
  checksum := DeviceChecksum.empty
  entries := mutations.mapIdx fun index mutation =>
    ⟨⟨mutation, ⟨ByteArr.zero 16, 1, 1, 0⟩, Seal.emptyAeadV1⟩, ⟨1, Fin.ofNat _ index⟩⟩

end Inserting

open Inserting in
/-- One inserted row: what is captured compiles, and the batch that carries it is raised to the
transaction. -/
theorem survives_authority_inserting :
    ∃ compiled, Built compiled ∧ compiled.logical.operations = [hello] ∧
      (admitted compiled.mutations).validate = .ok () ∧
      fromHomebase (admitted compiled.mutations) = .ok compiled.logical := by
  have hcaptured : (CatalogSnapshot.load [binding] >>= fun catalog =>
      RowChanges.fromCatalog catalog [insertion]) = .ok (some hello) := by decide +kernel
  have hadmitted : inserting.map (fun compiled => (compiled.logical.operations,
      (admitted compiled.mutations).validate, (admitted compiled.mutations).mutations)) =
      inserting.map fun compiled => ([hello], .ok (), compiled.mutations) := by decide +kernel
  have hok : inserting.isOk = true := by decide +kernel
  cases hinserting : inserting with
  | error error =>
    rw [hinserting] at hok
    cases hok
  | ok compiled =>
    obtain ⟨catalog, hload, hchanges⟩ := of_bind hcaptured
    obtain ⟨operation, hoperation, hcompiled⟩ := of_bind hinserting
    have hbuilt : Built compiled := .captured (List.forall_mem_singleton.mpr
      ⟨[binding], catalog, [insertion], hello, hload, hchanges, hoperation⟩) _ hcompiled
    rw [hinserting] at hadmitted
    obtain ⟨hlogical, hbatch⟩ := Prod.ext_iff.mp (Except.ok.inj hadmitted)
    obtain ⟨hvalid, hcarries⟩ := Prod.ext_iff.mp hbatch
    exact ⟨compiled, hbuilt, hlogical, hvalid,
      (survives_authority compiled hbuilt).2.2.1 _ hvalid hcarries⟩

end MultiliteTransaction

end Homebase.Multilite
