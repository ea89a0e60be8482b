import Homebase.Multilite.RowCodec

set_option autoImplicit false

/-!
# Multilite: transaction manifests (`logical/transaction.rs`, `logical/operation.rs`)

A transaction is lowered to one batch: its manifest under a key of its own, and then the mutations
of its operations.  A replica decodes the manifest, lowers it again and compares.

The operations here are row changes; the other kinds have frames of their own and are refused as
unknown.
-/

namespace Homebase.Multilite

open Foundation Homebase.Core

/-! ## Contracts -/

/-- `MutationKind`. -/
inductive MutationKind where
  | set
  | delete
  | deletePrefix
  deriving DecidableEq

/-- The texts of `Error::CaptureInvariant` that compiled output is refused with. -/
inductive OutputFault where
  /-- "Multilite operations cannot delete the full Homebase keyspace" -/
  | fullKeyspace
  /-- "mutation target is outside the logical target registry" -/
  | outsideRegistry
  /-- "mutation is absent from the operation contract" -/
  | absentContract
  /-- "compiler omitted a required operation guard" -/
  | omittedOperationGuard
  /-- "compiler omitted a guard required by a mutation" -/
  | omittedMutationGuard
  deriving DecidableEq

/-- `mutation_kind_and_key`. -/
def mutationKindAndKey : Mutation Bytes → Except OutputFault (MutationKind × Key)
  | .set key _ => .ok (.set, key)
  | .delete key => .ok (.delete, key)
  | .deleteRange (.prefixed target) => .ok (.deletePrefix, target)
  | .deleteRange .full => .error .fullKeyspace

/-- The part of `MUTATION_CONTRACTS` for `OperationFamily::RowChanges`. -/
def rowChangesMutations : List (MutationKind × TargetFamily) :=
  [(.set, .row), (.set, .uniqueOwner), (.set, .foreignReference), (.delete, .row),
    (.delete, .uniqueOwner), (.delete, .foreignReference), (.deletePrefix, .foreignReference)]

/-- The part of `MUTATION_CONTRACTS` for `OperationFamily::TransactionEnvelope`. -/
def envelopeMutations : List (MutationKind × TargetFamily) := [(.set, .transactionLog)]

/-- `validate_mutations`, for an operation with these contracts. -/
def validateMutations (contracts : List (MutationKind × TargetFamily))
    (mutations : List (Mutation Bytes)) : Except OutputFault Unit :=
  mutations.forM fun mutation => do
    let (kind, key) ← mutationKindAndKey mutation
    let family ← orFault .outsideRegistry (TargetFamily.classify key)
    require ((kind, family) ∈ contracts) .absentContract

/-- The part of `REQUIRED_GUARD_CONTRACTS` for `OperationFamily::RowChanges`. -/
def rowChangesRequired : List (GuardClass × GuardReason × TargetFamily) :=
  [(.invariant, .primaryIndex, .activePrimaryIndex), (.invariant, .writeContract, .writeRevision)]

/-- `mutation_guard_requirements`, for `OperationFamily::RowChanges`. -/
def mutationGuardRequirements : MutationKind → TargetFamily → List (GuardClass × GuardReason)
  | .set, .row => [(.invariant, .rowIdentity), (.write, .rowIdentity)]
  | .delete, .row => [(.write, .rowIdentity)]
  | .set, .uniqueOwner => [(.invariant, .uniqueOwnership), (.write, .uniqueOwnership)]
  | .delete, .uniqueOwner => [(.write, .uniqueOwnership)]
  | .set, .foreignReference => [(.invariant, .foreignReference), (.write, .foreignReference)]
  | .delete, .foreignReference => [(.write, .foreignReference)]
  | .deletePrefix, .foreignReference => [(.invariant, .foreignChildren), (.write, .foreignChildren)]
  | _, _ => []

/-- `validate_compiled_output`, for `OperationFamily::RowChanges`. -/
def validateCompiledOutput (mutations : List (Mutation Bytes)) (guards : GuardPlan) :
    Except OutputFault Unit := do
  validateMutations rowChangesMutations mutations
  require (∀ required ∈ rowChangesRequired, ∃ guard ∈ guards,
    (guard.guardClass, guard.reason, guard.family) = required) .omittedOperationGuard
  mutations.forM fun mutation => do
    let (kind, key) ← mutationKindAndKey mutation
    let family ← orFault .outsideRegistry (TargetFamily.classify key)
    require (∀ required ∈ mutationGuardRequirements kind family, ∃ guard ∈ guards,
      guard.target = key ∧ (guard.guardClass, guard.reason) = required) .omittedMutationGuard

/-! ## Operations -/

/-- `OperationCodecError`, with the text of an invalid payload as the error it is made of. -/
inductive OperationCodecError where
  | truncated
  | unknownVersion (version : U8)
  | unknownKind (kind : U8)
  | invalidPayload (error : RowCodecError)
  deriving DecidableEq

/-- `MultiliteOp::encode`, of row changes. -/
def encodeOperation (changes : RowChanges) : Bytes := 1 :: 2 :: changes.encode

/-- `MultiliteOp::decode`. -/
def decodeOperation : Bytes → Except OperationCodecError RowChanges
  | [] => .error .truncated
  | version :: rest =>
    if version ≠ 1 then .error (.unknownVersion version)
    else
      match rest with
      | [] => .error .truncated
      | kind :: payload =>
        if kind = 2 then
          match RowChanges.decode payload with
          | .ok changes => .ok changes
          | .error error => .error (.invalidPayload error)
        else .error (.unknownKind kind)

/-- What compiling a transaction fails with. -/
inductive CompileError where
  | row (error : RowError)
  | output (fault : OutputFault)
  /-- `CaptureLimitExceeded`, with the name of the resource and its limit -/
  | captureLimit (resource : String) (limit : Nat)
  /-- "transaction field is too large" -/
  | fieldTooLarge
  /-- a key of the manifest that does not fit -/
  | manifestKey (error : KeyError)
  /-- "transaction contains no operations" -/
  | noOperations
  deriving DecidableEq

def orRow {α : Type} : Except RowError α → Except CompileError α
  | .ok a => .ok a
  | .error error => .error (.row error)

def orOutput {α : Type} : Except OutputFault α → Except CompileError α
  | .ok a => .ok a
  | .error fault => .error (.output fault)

def orManifestKey {α : Type} : Except KeyError α → Except CompileError α
  | .ok a => .ok a
  | .error error => .error (.manifestKey error)

/-- `MultiliteOp::to_homebase`, of row changes. -/
def operationToHomebase (changes : RowChanges) : Except CompileError RowHomebaseOp := do
  let lowered ← orRow (toHomebase (fun rules => rules.encode.length) changes)
  orOutput (validateCompiledOutput lowered.mutations lowered.guards)
  .ok lowered

/-- `CompiledOperation`; a rejected one is undone by `RestoreRowChanges` of its changes. -/
structure CompiledOperation where
  logical : RowChanges
  homebase : RowHomebaseOp

/-- `MultiliteOp::compile`, of row changes. -/
def compileOperation (changes : RowChanges) : Except CompileError CompiledOperation := do
  let homebase ← operationToHomebase changes
  .ok ⟨changes, homebase⟩

/-! ## Transactions -/

/-- `TransactionId`. -/
abbrev TransactionId : Type := ByteArr 16

/-- `MultiliteTransaction`, of row changes. -/
abbrev MultiliteTransaction : Type := Transaction RowChanges

/-- `HomebaseTransaction`. -/
structure HomebaseTransaction where
  mutations : List (Mutation Bytes)
  guards : GuardPlan
  deriving DecidableEq

/-- `TransactionCodecError`. -/
inductive TransactionCodecError where
  | unknownVersion (version : U8)
  | truncated
  | duplicateField (tag : U8)
  | missingField (tag : U8)
  | invalidLength
  | invalidUuid
  | empty
  | tooManyOperations
  | frameTooLarge
  | invalidOperation (error : OperationCodecError)
  | invalidLowering (error : CompileError)
  | invalidBatch
  deriving DecidableEq

/-- `MAX_TRANSACTION_OPERATIONS`. -/
def maxTransactionOperations : Nat := 100000
/-- `MAX_TRANSACTION_FRAME_BYTES`. -/
def maxTransactionFrameBytes : Nat := 64 * 1024 * 1024

/-- The components of `LogicalTarget::TransactionLog`, and its key. -/
def transactionKey (id : TransactionId) : Except KeyError Key :=
  keyFromBytes [Codes.root, Codes.transactions, Codes.log, id.bytes]

/-- A batch whose values are opened: `AdmittedBatch<Vec<u8>>`. -/
structure OpenedBatch where
  admissionSeq : AdmissionSeq
  device : DeviceId
  deviceSeq : DeviceSeq
  checksum : DeviceChecksum
  entries : List (AdmittedEntry Bytes)
  deriving DecidableEq

/-- The same batch with its values opaque; `validate` does not look at them. -/
def OpenedBatch.opaqueBatch (batch : OpenedBatch) : AdmittedBatch where
  admissionSeq := batch.admissionSeq
  device := batch.device
  deviceSeq := batch.deviceSeq
  checksum := batch.checksum
  entries := batch.entries.map fun entry =>
    { deviceEntry :=
        { mutation := match entry.deviceEntry.mutation with
            | .set key value => .set key ⟨value⟩
            | .delete key => .delete key
            | .deleteRange range => .deleteRange range
          tag := entry.deviceEntry.tag
          sealing := entry.deviceEntry.sealing }
      admission := entry.admission }

/-- `AdmittedBatch::validate`. -/
def OpenedBatch.validate (batch : OpenedBatch) : Except PullDensityError Unit :=
  batch.opaqueBatch.validate

/-- The mutations of a batch. -/
def OpenedBatch.mutations (batch : OpenedBatch) : List (Mutation Bytes) :=
  batch.entries.map fun entry => entry.deviceEntry.mutation

namespace MultiliteTransaction

/-- One operation of `encode_with_limits`: its frame is within the limit. -/
def encodeStep (maxBytes : Nat) (written : Bytes) (operation : RowChanges) :
    Except CompileError Bytes :=
  let encoded := encodeOperation operation
  if maxBytes < written.length + 5 + encoded.length then
    .error (.captureLimit "transaction frame bytes" maxBytes)
  else if 2 ^ 32 ≤ encoded.length then .error .fieldTooLarge
  else .ok (written ++ Writer.field 2 encoded)

/-- `encode_with_limits`. -/
def encodeWithLimits (transaction : MultiliteTransaction) (maxOperations maxBytes : Nat) :
    Except CompileError Bytes :=
  if maxOperations < transaction.operations.length then
    .error (.captureLimit "transaction operation count" maxOperations)
  else
    transaction.operations.foldlM (encodeStep maxBytes)
      (1 :: Writer.field 1 transaction.id.bytes)

/-- `MultiliteTransaction::encode`. -/
def encode (transaction : MultiliteTransaction) : Except CompileError Bytes :=
  transaction.encodeWithLimits maxTransactionOperations maxTransactionFrameBytes

/-- `uuid_bytes` of transactions. -/
def transactionUuid (value : Bytes) : Except TransactionCodecError TransactionId :=
  match ByteArr.ofBytes 16 value with
  | none => .error .invalidLength
  | some id => if RandomUuid id then .ok id else .error .invalidUuid

/-- The slots of `decode_with_limits`. -/
structure Fields where
  id : Option TransactionId
  operations : List RowChanges

def Fields.step (maxOperations : Nat) (s : Fields) (entry : U8 × Bytes) :
    Except TransactionCodecError Fields :=
  if entry.1 = 1 then do
    let id ← transactionUuid entry.2
    if s.id.isSome then .error (.duplicateField 1) else .ok { s with id := some id }
  else if entry.1 = 2 then
    if s.operations.length = maxOperations then .error .tooManyOperations
    else
      match decodeOperation entry.2 with
      | .ok operation => .ok { s with operations := s.operations ++ [operation] }
      | .error error => .error (.invalidOperation error)
  else .ok s

/-- `decode_with_limits`. -/
def decodeWithLimits (frame : Bytes) (maxOperations maxBytes : Nat) :
    Except TransactionCodecError MultiliteTransaction :=
  if maxBytes < frame.length then .error .frameTooLarge
  else
    match frame with
    | [] => .error .truncated
    | version :: rest =>
      if version ≠ 1 then .error (.unknownVersion version)
      else do
        let s ← readFields .truncated (Fields.step maxOperations) ⟨none, []⟩ rest
        require (s.operations ≠ []) .empty
        let id ← orFault (.missingField 1) s.id
        .ok ⟨id, s.operations⟩

/-- `MultiliteTransaction::decode`. -/
def decode (frame : Bytes) : Except TransactionCodecError MultiliteTransaction :=
  decodeWithLimits frame maxTransactionOperations maxTransactionFrameBytes

/-- `MultiliteTransaction::to_homebase`. -/
def toHomebase (transaction : MultiliteTransaction) : Except CompileError HomebaseTransaction := do
  let key ← orManifestKey (transactionKey transaction.id)
  let value ← transaction.encode
  orOutput (validateMutations envelopeMutations [.set key value])
  let lowered ← transaction.operations.mapM operationToHomebase
  .ok ⟨.set key value :: lowered.flatMap RowHomebaseOp.mutations,
    lowered.flatMap RowHomebaseOp.guards⟩

/-- `compile_operations`. -/
def compileOperations (id : TransactionId) (operations : List CompiledOperation) :
    Except CompileError (CompiledTransaction RowChanges) := do
  let logical : MultiliteTransaction := ⟨id, operations.map CompiledOperation.logical⟩
  let key ← orManifestKey (transactionKey id)
  let value ← logical.encode
  orOutput (validateMutations envelopeMutations [.set key value])
  .ok ⟨logical, .set key value :: operations.flatMap fun operation => operation.homebase.mutations,
    operations.flatMap fun operation => operation.homebase.guards.map ReasonedGuard.guard,
    logical.operations.reverse⟩

/-- `MultiliteTransaction::compile`. -/
def compile (transaction : MultiliteTransaction) :
    Except CompileError (CompiledTransaction RowChanges) := do
  let operations ← transaction.operations.mapM compileOperation
  compileOperations transaction.id operations

/-- `Uuid::new_v4`, of the random bytes it is made of. -/
def newV4 (random : ByteArr 16) : ByteArr 16 :=
  ⟨(random.bytes.set 6 (Fin.ofNat 256 ((random.bytes.getD 6 0).val % 16 + 64))).set 8
    (Fin.ofNat 256 ((random.bytes.getD 8 0).val % 64 + 128)), by simp [random.length_eq]⟩

/-- `from_compiled_operations`. -/
def fromCompiledOperations (random : ByteArr 16) (operations : List CompiledOperation) :
    Except CompileError (CompiledTransaction RowChanges) :=
  if operations = [] then .error .noOperations else compileOperations (newV4 random) operations

/-- `from_homebase_inner`. -/
def fromHomebase (batch : OpenedBatch) : Except TransactionCodecError MultiliteTransaction :=
  match batch.validate with
  | .error _ => .error .invalidBatch
  | .ok () =>
    match batch.mutations with
    | .set _ value :: _ => do
      let transaction ← decode value
      match transaction.toHomebase with
      | .error error => .error (.invalidLowering error)
      | .ok lowered =>
        require (batch.mutations = lowered.mutations) .invalidBatch
        .ok transaction
    | _ => .error .invalidBatch

end MultiliteTransaction

end Homebase.Multilite
