import Homebase.Server.Lease

set_option autoImplicit false

/-!
# Server: the data plane (`server/src/space/data.rs`)

Admission and the read verbs, over one space of an ordered store.

Integer additions are those of a build with overflow checks: an overflow is a
panic.  A loop of the source that carries several mutable variables becomes a
recursion over a record of them (`Staging`), and the early `return Ok(..)` of a
failed range assertion becomes the constructor `Exit.response`.
-/

namespace Homebase.Server

open Foundation Homebase.Core

/-! ## Record accessors -/

/-- `data`. -/
def data (space : SpaceId) (store : Store) (key : Key) : Except Failure (Option DataRecord) :=
  readRecord store (dataKey space key) (DataRecord.decode key) "corrupt data record"

/-- `range_delete`. -/
def rangeDelete (space : SpaceId) (store : Store) (range : Range) :
    Except Failure (Option RangeDeleteRecord) :=
  readRecord store (rangeDeleteKey space range) (RangeDeleteRecord.decode range)
    "corrupt range-delete record"

/-- `device`. -/
def device (space : SpaceId) (store : Store) (device : DeviceId) :
    Except Failure (Option DeviceRecord) :=
  readRecord store (deviceKey space device) DeviceRecord.decode "corrupt device record"

/-- The aggregate of a range, as `effective_history` and `effective_live_count` read it. -/
def aggregate (space : SpaceId) (store : Store) (target : Range) :
    Except Failure PrefixMetaRecord :=
  (readRecord store (aggregateKey space target) PrefixMetaRecord.decode
    "corrupt aggregate record").map fun record => record.getD PrefixMetaRecord.empty

/-- One round of the loops over `covering_range_delete_keys`: a stored tombstone
is decoded and folded in. -/
def visitCovering {σ : Type} (store : Store) (fold : σ → RangeDeleteRecord → σ) (acc : σ)
    (storageKey : Bytes) : Except Failure σ :=
  match store.get storageKey with
  | none => .ok acc
  | some bytes => do
      let parts ← expect "corrupt range-delete key" (rangeDeleteParts storageKey)
      let record ← expect "corrupt range-delete record" (RangeDeleteRecord.decode parts.2 bytes)
      .ok (fold acc record)

/-- A loop over `covering_range_delete_keys`. -/
def forCovering {σ : Type} (space : SpaceId) (store : Store) (target : Range)
    (fold : σ → RangeDeleteRecord → σ) (init : σ) : Except Failure σ :=
  (coveringRangeDeleteKeys space target).foldlM (visitCovering store fold) init

/-- The newer of two tombstones; ties keep the earlier one. -/
def newerRecord (newest : Option RangeDeleteRecord) (record : RangeDeleteRecord) :
    Option RangeDeleteRecord :=
  match newest with
  | none => some record
  | some current =>
      if record.entry.order > current.entry.order then some record else some current

/-- `covering_range_delete`. -/
def coveringRangeDelete (space : SpaceId) (store : Store) (target : Range) :
    Except Failure (Option RangeDeleteRecord) :=
  forCovering space store target newerRecord none

/-- `max_ver`. -/
def maxVer : Option Ver → Option Ver → Option Ver
  | some left, some right => some (max left right)
  | some ver, none => some ver
  | none, some ver => some ver
  | none, none => none

/-- `covering_range_max_ver`. -/
def coveringRangeMaxVer (space : SpaceId) (store : Store) (key : Key) :
    Except Failure (Option Ver) :=
  forCovering space store (.prefixed key) (fun max record => maxVer max (some record.maxVer)) none

/-- `EffectiveHistory`. -/
structure EffectiveHistory where
  history : HistoricalHeads
  maxVer : Ver
  deriving DecidableEq

/-- `EffectiveHistory::max_excluding`. -/
def EffectiveHistory.maxExcluding (effective : EffectiveHistory) (device : DeviceId) :
    AdmissionSeq :=
  effective.history.maxExcluding device

/-- One tombstone folded into an effective history. -/
def EffectiveHistory.mergeRecord (effective : EffectiveHistory) (record : RangeDeleteRecord) :
    EffectiveHistory :=
  ⟨effective.history.merge record.history, max effective.maxVer record.maxVer⟩

/-- `effective_history`. -/
def effectiveHistory (space : SpaceId) (store : Store) (target : Range) :
    Except Failure EffectiveHistory := do
  let record ← aggregate space store target
  forCovering space store target EffectiveHistory.mergeRecord ⟨record.history, record.maxVer⟩

/-- `effective_live_count`. -/
def effectiveLiveCount (space : SpaceId) (store : Store) (target : Range) :
    Except Failure U64 := do
  let record ← aggregate space store target
  let newest ← coveringRangeDelete space store target
  let reset := newest.map fun record => record.entry.order
  .ok (if reset.any fun reset => decide (record.countEpoch < reset) then 0 else record.liveCount)

/-- `mutation_relevant`. -/
def mutationRelevant {α : Type} (query : Range) : Mutation α → Bool
  | .set key _ => query.coversKey key
  | .delete key => query.coversKey key
  | .deleteRange range => query.overlaps range

/-- The order of a staged range event that covers the target. -/
def resetOrder (target : Range) (entry : Entry) : Option AdmissionOrder :=
  match entry.mutation with
  | .deleteRange range => if range.coversRange target then some entry.order else none
  | .set _ _ => none
  | .delete _ => none

/-- `newest_covering_reset`. -/
def newestCoveringReset (space : SpaceId) (store : Store) (target : Range)
    (stagedEvents : List Entry) : Except Failure (Option AdmissionOrder) := do
  let newest ← coveringRangeDelete space store target
  let stored := newest.map fun record => record.entry.order
  .ok ((stagedEvents.filterMap (resetOrder target)).foldl
    (fun newest order => some (newest.elim order fun current => max current order)) stored)

/-- `point_record_visible`. -/
def pointRecordVisible (space : SpaceId) (store : Store) (record : DataRecord) :
    Except Failure Bool :=
  if record.entry.mutation.isSet then do
    let covering ← coveringRangeDelete space store (.prefixed record.key)
    .ok (covering.all fun delete => decide (record.entry.order > delete.entry.order))
  else .ok false

/-- `point_record_visible_with_events`. -/
def pointRecordVisibleWithEvents (space : SpaceId) (store : Store)
    (record : Option DataRecord) (stagedEvents : List Entry) : Except Failure Bool :=
  match record with
  | none => .ok false
  | some record =>
      if record.entry.mutation.isSet then do
        let newestReset ← newestCoveringReset space store (.prefixed record.key) stagedEvents
        .ok (newestReset.all fun reset => decide (record.entry.order > reset))
      else .ok false

/-! ## Aggregates while a request is staged -/

/-- `staged_aggregates`. -/
abbrev Aggregates : Type := OrdMap Bytes PrefixMetaRecord

/-- `aggregate_path`. -/
def aggregatePath (space : SpaceId) (range : Range) : List (Range × Bytes) :=
  range.covering.map fun node => (node, aggregateKey space node)

/-- `load_aggregate`. -/
def loadAggregate (store : Store) (staged : Aggregates) (key : Bytes) :
    Except Failure Aggregates :=
  if staged.contains key then .ok staged
  else do
    let record ← readRecord store key PrefixMetaRecord.decode "corrupt prefix meta record"
    .ok (staged.insert key (record.getD PrefixMetaRecord.empty))

/-- `materialize_aggregate`. -/
def materializeAggregate (space : SpaceId) (store : Store) (stagedEvents : List Entry)
    (staged : Aggregates) (node : Range × Bytes) : Except Failure Aggregates := do
  let staged ← loadAggregate store staged node.2
  match ← newestCoveringReset space store node.1 stagedEvents with
  | none => .ok staged
  | some reset => do
      let record ← expect "aggregate was loaded" (staged.get node.2)
      if record.countEpoch < reset then
        .ok (staged.insert node.2 { record with liveCount := 0, countEpoch := reset })
      else .ok staged

/-- What both count updates pass along about the admitted operation. -/
structure Observation where
  device : DeviceId
  seq : AdmissionSeq
  ver : Ver
  order : AdmissionOrder

/-- One round of `apply_point_count`. -/
def applyPointCountAt (space : SpaceId) (store : Store) (stagedEvents : List Entry)
    (op : Observation) (delta : Int) (staged : Aggregates) (node : Range × Bytes) :
    Except Failure Aggregates := do
  let staged ← materializeAggregate space store stagedEvents staged node
  let record ← expect "aggregate was loaded" (staged.get node.2)
  let record := record.observeHistory op.device op.seq op.ver
  let liveCount ←
    expect "live count underflow: aggregates diverged from visible point state"
      (record.liveCount.checkedAddSigned delta)
  let counted : PrefixMetaRecord := { record with liveCount := liveCount }
  .ok (staged.insert node.2 (counted.materializeCountAt op.order))

/-- `apply_point_count`. -/
def applyPointCount (space : SpaceId) (store : Store) (staged : Aggregates)
    (stagedEvents : List Entry) (op : Observation) (key : Key) (delta : Int) :
    Except Failure Aggregates :=
  (aggregatePath space (.prefixed key)).foldlM
    (applyPointCountAt space store stagedEvents op delta) staged

/-- The second loop of `apply_range_count`; the last node is the target. -/
def settleRangePath (op : Observation) (removed : U64) :
    List (Range × Bytes) → Aggregates → Except Failure Aggregates
  | [], staged => .ok staged
  | node :: rest, staged => do
      let record ← expect "aggregate was loaded" (staged.get node.2)
      let record := record.observeHistory op.device op.seq op.ver
      if rest = [] then
        settleRangePath op removed rest
          (staged.insert node.2 { record with liveCount := 0, countEpoch := op.order })
      else
        let liveCount ←
          expect "live count underflow: range count exceeds ancestor count"
            (record.liveCount.checkedSub removed)
        let counted : PrefixMetaRecord := { record with liveCount := liveCount }
        settleRangePath op removed rest
          (staged.insert node.2 (counted.materializeCountAt op.order))

/-- `apply_range_count`. -/
def applyRangeCount (space : SpaceId) (store : Store) (staged : Aggregates)
    (stagedEvents : List Entry) (op : Observation) (range : Range) :
    Except Failure Aggregates := do
  let path := aggregatePath space range
  let staged ← path.foldlM (materializeAggregate space store stagedEvents) staged
  let target ← expect "aggregate path has Full root" path.getLast?
  let record ← expect "target aggregate was loaded" (staged.get target.2)
  settleRangePath op record.liveCount path staged

/-! ## Admission -/

/-- The mutable variables of `admit_impl` across its loops. -/
structure Staging where
  nextChecksum : DeviceChecksum
  nextAdmissionSeq : AdmissionSeq
  results : List AdmissionResult
  batch : WriteBatch
  staged : OrdMap Key DataRecord
  stagedRanges : OrdMap Range RangeDeleteRecord
  stagedEvents : List Entry
  stagedAggregates : Aggregates

/-- How `admit_impl` leaves before the final write: a failure, or the early
return of a response. -/
inductive Exit where
  | failure (failure : Failure)
  | response (response : AdmissionResponse)

/-- `?` on a result whose errors are failures. -/
def orExit {α : Type} : Except Failure α → Except Exit α
  | .ok a => .ok a
  | .error failure => .error (.failure failure)

/-- The device-sequence loop of `admit_impl`; returns the last sequence. -/
def checkDeviceSeqs : Bool → DeviceSeq → List AdmissionBatch → Except Failure DeviceSeq
  | _, last, [] => .ok last
  | first, last, batch :: rest =>
      if batch.deviceSeq ≤ last then
        .error (.kernel (.deviceSeqRegression last batch.deviceSeq))
      else if first then checkDeviceSeqs false batch.deviceSeq rest
      else do
        let next ← addOne last
        if batch.deviceSeq ≠ next then
          .error (.kernel (.deviceSeqRegression last batch.deviceSeq))
        else checkDeviceSeqs false batch.deviceSeq rest

/-- The point keys of a request, in order. -/
def requestKeys (req : AdmissionRequest) : List Key :=
  (req.batches.flatMap AdmissionBatch.entries).filterMap fun entry => entry.mutation.pointKey

/-- The ranges of a request, in order. -/
def requestRanges (req : AdmissionRequest) : List Range :=
  (req.batches.flatMap AdmissionBatch.entries).filterMap fun entry => entry.mutation.range

/-- One assertion of `range_assert_failures`. -/
def checkAssert (space : SpaceId) (store : Store) (device : DeviceId)
    (failures : List RangeAssertFailure) (assertion : RangeAssert) :
    Except Failure (List RangeAssertFailure) := do
  let effective ← effectiveHistory space store (.prefixed assertion.assertPrefix)
  let actual := effective.maxExcluding device
  if actual > assertion.upto then
    .ok (failures ++ [⟨assertion.assertPrefix, assertion.upto, actual⟩])
  else .ok failures

/-- `range_assert_failures`. -/
def rangeAssertFailures (space : SpaceId) (store : Store) (device : DeviceId)
    (batch : AdmissionBatch) : Except Failure (List RangeAssertFailure) :=
  batch.rangeAsserts.foldlM (checkAssert space store device) []

/-- `failed_response`. -/
def failedResponse (count : Nat) (error : KernelError) (checksum : DeviceChecksum) :
    AdmissionResponse :=
  ⟨checksum, List.replicate count (.failed error)⟩

/-- The versions of staged events that pass a test, as `.filter(..).map(ver).max()`. -/
def stagedMaxVer (stagedEvents : List Entry) (relevant : Entry → Bool) : Option Ver :=
  (stagedEvents.filter relevant).foldl (fun max event => maxVer max (some event.ver)) none

/-- Whether a staged event is a range deletion that covers the key. -/
def rangeCoversKey (key : Key) (event : Entry) : Bool :=
  match event.mutation with
  | .deleteRange range => range.coversKey key
  | .set _ _ => false
  | .delete _ => false

/-- `u32::try_from(..).map_err(..)` on positions in a batch. -/
def opIndexOf (index : Nat) : Except Failure U32 :=
  match U32.tryFrom index with
  | some value => .ok value
  | none => .error (.kernel (.invalidSeal "admission batch has too many entries"))

/-- What one admitted operation tells the aggregates. -/
def Observation.of (admitted : Entry) (device : DeviceId) : Observation :=
  ⟨device, admitted.seq, admitted.ver, admitted.order⟩

/-- The stored record of a key, which `admit_impl` reads only where none is staged. -/
def storedPoint (space : SpaceId) (store : Store) (key : Key) (st : Staging) :
    Except Failure (Option DataRecord) :=
  if st.staged.contains key then .ok none else data space store key

/-- The branch of `admit_impl` for Set and Delete. -/
def admitPoint (space : SpaceId) (store : Store) (device : DeviceId) (key : Key) (admitted : Entry)
    (hpoint : admitted.mutation.isDeleteRange = false) (st : Staging) :
    Except Failure Staging := do
  let stored ← storedPoint space store key st
  let priorLive ← pointRecordVisibleWithEvents space store ((st.staged.get key).or stored)
    st.stagedEvents
  let currentVer := ((st.staged.get key).map fun record => record.entry.ver).or
    (stored.map fun record => record.entry.ver)
  let coveringVer ← coveringRangeMaxVer space store key
  let currentVer := maxVer currentVer coveringVer
  let currentVer := maxVer currentVer (stagedMaxVer st.stagedEvents (rangeCoversKey key))
  match currentVer.filter fun current => decide (admitted.ver ≤ current) with
  | some current => .error (.kernel (.verRegression key current admitted.ver))
  | none => do
      let delta : Int := (if admitted.mutation.isSet then 1 else 0) - (if priorLive then 1 else 0)
      let stagedAggregates ← applyPointCount space store st.stagedAggregates st.stagedEvents
        (Observation.of admitted device) key delta
      let record : DataRecord := ⟨admitted, hpoint⟩
      .ok { st with
        stagedAggregates := stagedAggregates
        staged := st.staged.insert key record
        batch := st.batch.put
          (admissionOpKey space admitted.seq admitted.admission.opIndex key) record.encode
        stagedEvents := st.stagedEvents ++ [admitted] }

/-- The tombstone of a range after one more deletion at it: the staged one, else the
stored one, else a new one. -/
def nextTombstone (space : SpaceId) (store : Store) (range : Range) (admitted : Entry)
    (hrange : admitted.mutation.isDeleteRange = true) (st : Staging) :
    Except Failure RangeDeleteRecord :=
  match st.stagedRanges.get range with
  | some record => record.observe admitted
  | none => do
      let stored ← rangeDelete space store range
      let record := stored.getD (RangeDeleteRecord.new admitted hrange)
      if record.entry.order ≠ admitted.order then record.observe admitted else .ok record

/-- The branch of `admit_impl` for DeleteRange. -/
def admitRange (space : SpaceId) (store : Store) (device : DeviceId) (range : Range)
    (admitted : Entry) (hrange : admitted.mutation.isDeleteRange = true) (st : Staging) :
    Except Failure Staging := do
  let effective ← effectiveHistory space store range
  let currentVer :=
    if effective.history.maxAdmissionSeq ≠ 0 then some effective.maxVer else none
  let currentVer := maxVer currentVer
    (stagedMaxVer st.stagedEvents fun event => mutationRelevant range event.mutation)
  match currentVer.filter fun current => decide (admitted.ver ≤ current) with
  | some current => .error (.kernel (.rangeVerRegression range current admitted.ver))
  | none => do
      let stagedAggregates ← applyRangeCount space store st.stagedAggregates st.stagedEvents
        (Observation.of admitted device) range
      let record ← nextTombstone space store range admitted hrange st
      .ok { st with
        stagedAggregates := stagedAggregates
        stagedRanges := st.stagedRanges.insert range record
        batch := st.batch.put
          (admissionRangeOpKey space admitted.seq admitted.admission.opIndex range)
          (RangeDeleteRecord.new admitted hrange).encode
        stagedEvents := st.stagedEvents ++ [admitted] }

/-- The two branches of `admit_impl` on the mutation of an entry. -/
def admitMutation (space : SpaceId) (store : Store) (device : DeviceId) (admitted : Entry)
    (st : Staging) : Except Failure Staging :=
  match h : admitted.mutation with
  | .set key _ =>
      admitPoint space store device key admitted (congrArg Mutation.isDeleteRange h) st
  | .delete key =>
      admitPoint space store device key admitted (congrArg Mutation.isDeleteRange h) st
  | .deleteRange range =>
      admitRange space store device range admitted (congrArg Mutation.isDeleteRange h) st

/-- The body of the entry loop of `admit_impl`. -/
def admitEntry (space : SpaceId) (store : Store) (device : DeviceId) (deviceSeq : DeviceSeq)
    (seq : AdmissionSeq) (index : Nat) (entry : SealedEntry) (st : Staging) :
    Except Failure Staging := do
  let opIndex ← opIndexOf index
  if entry.tag.device ≠ device ∨ entry.tag.deviceSeq ≠ deviceSeq then
    .error (.kernel (.invalidSeal "device entry tag does not match its admission batch"))
  else
    match entry.sealing.validatePayload with
    | .error reason => .error (.kernel (.invalidSeal reason))
    | .ok () => admitMutation space store device ⟨entry, ⟨seq, opIndex⟩⟩ st

/-- The entry loop of `admit_impl`, from position `index`. -/
def admitEntries (space : SpaceId) (store : Store) (device : DeviceId) (deviceSeq : DeviceSeq)
    (seq : AdmissionSeq) : Nat → List SealedEntry → Staging → Except Failure Staging
  | _, [], st => .ok st
  | index, entry :: rest, st => do
      let st ← admitEntry space store device deviceSeq seq index entry st
      admitEntries space store device deviceSeq seq (index + 1) rest st

section Admit

variable (sha256 : Bytes → ByteArr 32) (space : SpaceId) (store : Store)

/-- The body of the batch loop of `admit_impl`. -/
def admitBatch (req : AdmissionRequest) (currentChecksum : DeviceChecksum)
    (clientBatch : AdmissionBatch) (st : Staging) : Except Exit Staging := do
  let failures ← orExit (rangeAssertFailures space store req.device clientBatch)
  if failures ≠ [] then
    .error (.response
      (failedResponse req.batches.length (.rangeAssertFailed failures) currentChecksum))
  else
    let nextChecksum := clientBatch.checksum sha256 st.nextChecksum space req.device
    let operationCount ← orExit (opIndexOf clientBatch.entries.length)
    let seq := st.nextAdmissionSeq
    let nextAdmissionSeq ← orExit (addOne seq)
    let st ← orExit (admitEntries space store req.device clientBatch.deviceSeq seq 0
      clientBatch.entries
      { st with
        nextChecksum := nextChecksum
        nextAdmissionSeq := nextAdmissionSeq
        results := st.results ++ [.applied seq] })
    let header : AdmissionHeaderRecord :=
      ⟨req.device, clientBatch.deviceSeq, nextChecksum, operationCount⟩
    .ok { st with batch := st.batch.put (admissionHeaderKey space seq) header.encode }

/-- The batch loop of `admit_impl`. -/
def admitBatches (req : AdmissionRequest) (currentChecksum : DeviceChecksum) :
    List AdmissionBatch → Staging → Except Exit Staging
  | [], st => .ok st
  | clientBatch :: rest, st => do
      let st ← admitBatch sha256 space store req currentChecksum clientBatch st
      admitBatches req currentChecksum rest st

/-- What `admit_impl` starts its loops with. -/
def Staging.start (currentChecksum : DeviceChecksum) (nextAdmissionSeq : AdmissionSeq) :
    Staging where
  nextChecksum := currentChecksum
  nextAdmissionSeq := nextAdmissionSeq
  results := []
  batch := WriteBatch.new
  staged := OrdMap.empty
  stagedRanges := OrdMap.empty
  stagedEvents := []
  stagedAggregates := OrdMap.empty

/-- The final write of `admit_impl`: the log first, then materialized data,
tombstones and aggregates in key order, then device and counters. -/
def Staging.commit (st : Staging) (device : DeviceId) (lastDeviceSeq : DeviceSeq)
    (counters : CountersRecord) : WriteBatch :=
  let batch := st.staged.entries.foldl
    (fun batch p => batch.put (dataKey space p.1) p.2.encode) st.batch
  let batch := st.stagedRanges.entries.foldl
    (fun batch p => batch.put (rangeDeleteKey space p.1) p.2.encode) batch
  let batch := st.stagedAggregates.entries.foldl
    (fun batch p => batch.put p.1 p.2.encode) batch
  let record : DeviceRecord := ⟨lastDeviceSeq, st.nextChecksum⟩
  (batch.put (deviceKey space device) record.encode).put (countersKey space) counters.encode

/-- `admit_impl`. -/
def admitImpl (now : Timestamp) (req : AdmissionRequest) :
    Except Exit (AdmissionResponse × Store) := do
  let deviceRecord ← orExit (device space store req.device)
  let lastDeviceSeq := deviceRecord.elim 0 DeviceRecord.lastSeq
  let currentChecksum := deviceRecord.elim DeviceChecksum.empty DeviceRecord.checksum
  if req.expectedChecksum ≠ currentChecksum then
    .error (.failure (.kernel (.deviceChecksumMismatch lastDeviceSeq currentChecksum)))
  else
    let lastDeviceSeq ← orExit (checkDeviceSeqs true lastDeviceSeq req.batches)
    orExit (validateWrites space store now req.device req.evidence (requestKeys req)
      (requestRanges req))
    let record ← orExit (counters space store)
    let nextAdmissionSeq ← orExit (addOne record.admissionHighWater)
    let st ← admitBatches sha256 space store req currentChecksum req.batches
      (Staging.start currentChecksum nextAdmissionSeq)
    let admissionHighWater ← orExit
      (expect "attempt to subtract with overflow" (U64.checkedSub st.nextAdmissionSeq 1))
    let batch := st.commit space req.device lastDeviceSeq { record with admissionHighWater }
    .ok (⟨st.nextChecksum, st.results⟩, store.apply batch)

/-- `admitRequest`: the outcome, and the store it leaves behind. -/
def admitRequest (now : Timestamp) (req : AdmissionRequest) :
    Except Failure AdmissionResponse × Store :=
  match admitImpl sha256 space store now req with
  | .ok (response, store) => (.ok response, store)
  | .error (.response response) => (.ok response, store)
  | .error (.failure failure) => (.error failure, store)

end Admit

/-! ## Reads -/

section Reads

variable (space : SpaceId) (store : Store)

/-- The visible entry of one key of a `get`. -/
def getOne (key : Key) : Except Failure (Option Entry) := do
  match ← data space store key with
  | none => .ok none
  | some record => do
      let visible ← pointRecordVisible space store record
      .ok (if visible then some record.entry else none)

/-- `get`. -/
def get (req : GetRequest) : Except Failure GetResponse := do
  let entries ← req.keys.mapM (getOne space store)
  .ok ⟨entries⟩

/-- A stored row of the Data keyspace. -/
def decodeRow (row : Bytes × Bytes) : Except Failure DataRecord := do
  let key ← expect "corrupt data key" (userKeyFromData row.1)
  expect "corrupt data record" (DataRecord.decode key row.2)

/-- The loop of `list`. -/
def listLoop (limit : Option Nat) : List (Bytes × Bytes) → List Entry →
    Except Failure ListResponse
  | [], entries => .ok ⟨entries, false⟩
  | row :: rest, entries => do
      let record ← decodeRow row
      let visible ← pointRecordVisible space store record
      if !visible then listLoop limit rest entries
      else if limit.any fun limit => decide (limit ≤ entries.length) then .ok ⟨entries, true⟩
      else listLoop limit rest (entries ++ [record.entry])

/-- Where `list` starts its scan. -/
def listStart (req : ListRequest) : Bytes :=
  match req.startAfter with
  | some after => max (dataKey space after ++ [0]) (dataKey space req.listPrefix)
  | none => dataKey space req.listPrefix

/-- `list`. -/
def list (req : ListRequest) : Except Failure ListResponse := do
  let rows ← expect "range start is greater than range end in BTreeMap"
    (store.scan (listStart space req) (prefixSuccessor (dataKey space req.listPrefix)))
  listLoop space store req.limit rows []

/-- The loop of `snapshot`. -/
def snapshotLoop : List (Bytes × Bytes) → List Entry → Except Failure (List Entry)
  | [], entries => .ok entries
  | row :: rest, entries => do
      let record ← decodeRow row
      let visible ← pointRecordVisible space store record
      snapshotLoop rest (if visible then entries ++ [record.entry] else entries)

/-- The byte prefix `snapshot` scans. -/
def snapshotBase : Range → Bytes
  | .full => dataScanAll space
  | .prefixed p => dataKey space p

/-- `snapshot`. -/
def snapshot (range : Range) : Except Failure (List Entry) := do
  let live ← effectiveLiveCount space store range
  if live = 0 then .ok []
  else
    let rows ← rowsUnder store (snapshotBase space range)
    snapshotLoop space store rows []

/-- One stored operation of a batch: the body of the inner loop of
`read_admission_interval`. -/
def readOperation (admissionSeq : AdmissionSeq) (header : AdmissionHeaderRecord)
    (entries : List Entry) (row : Bytes × Bytes) : Except Failure (List Entry) := do
  let (storedSeq, opIndex, target) ←
    expect "corrupt admission operation key" (admissionOpParts row.1)
  ensure (storedSeq = admissionSeq) "admission operation in wrong batch"
  ensure (opIndex.val = entries.length) "admission operation gap"
  let entry ← match target with
    | .point key =>
        (expect "corrupt point admission operation" (DataRecord.decode key row.2)).map
          DataRecord.entry
    | .range range =>
        (expect "corrupt range admission operation" (RangeDeleteRecord.decode range row.2)).map
          RangeDeleteRecord.entry
  ensure (entry.deviceEntry.tag.device = header.device)
    "admission operation device disagrees with its header"
  ensure (entry.deviceEntry.tag.deviceSeq = header.deviceSeq)
    "admission operation device seq disagrees with its header"
  ensure (entry.order = ⟨admissionSeq, opIndex⟩)
    "admission operation tag disagrees with its storage key"
  .ok (entries ++ [entry])

/-- One batch of `read_admission_interval`. -/
def readBatch (admissionSeq : AdmissionSeq) : Except Failure AdmittedBatch := do
  let header ← expect "missing or corrupt admission header below high water"
    ((store.get (admissionHeaderKey space admissionSeq)).bind AdmissionHeaderRecord.decode)
  let rows ← rowsUnder store (admissionOpScan space admissionSeq)
  let entries ← rows.foldlM (readOperation admissionSeq header) []
  ensure (entries.length = header.operationCount.val)
    "admission header operation count mismatch"
  .ok ⟨admissionSeq, header.device, header.deviceSeq, header.checksum, entries⟩

/-- The sequences `after.saturating_add(1)..=through`. -/
def seqInterval (after through : AdmissionSeq) : List AdmissionSeq :=
  (List.range' (U64.saturatingAdd after 1).val
    (through.val + 1 - (U64.saturatingAdd after 1).val)).map U64.ofNat

/-- `read_admission_interval`. -/
def readAdmissionInterval (after through : AdmissionSeq) : Except Failure (List AdmittedBatch) :=
  (seqInterval after through).mapM (readBatch space store)

/-- `delta`. -/
def delta (range : Range) (since at' : AdmissionSeq) : Except Failure (List Entry) := do
  let effective ← effectiveHistory space store range
  if effective.history.maxAdmissionSeq ≤ since then .ok []
  else
    let batches ← readAdmissionInterval space store since at'
    .ok (batches.flatMap fun batch =>
      batch.entries.filter fun entry => mutationRelevant range entry.mutation)

/-- One range of a `read_at`. -/
def readCut (at' : AdmissionSeq) (cursor : RangeCursor) : Except Failure RangeCut :=
  match cursor.since with
  | none => (snapshot space store cursor.range).map RangeCut.snapshot
  | some since => (delta space store cursor.range since at').map RangeCut.delta

/-- `read_at`. -/
def readAt (req : ReadAtRequest) : Except Failure ReadAtResponse := do
  let record ← counters space store
  let ranges ← req.ranges.mapM (readCut space store record.admissionHighWater)
  .ok ⟨record.admissionHighWater, ranges⟩

/-- `pull`. -/
def pull (req : PullRequest) : Except Failure PullResponse := do
  let record ← counters space store
  let highWater := record.admissionHighWater
  if req.after > highWater then
    .error (.kernel (.admissionCursorAhead req.after highWater))
  else
    let available := U64.saturatingSub highWater req.after
    let limit : U64 := (req.maxBatches.map fun limit =>
      (U64.tryFrom limit).getD (Fin.last _)).getD (Fin.last _)
    let through ← expect "attempt to add with overflow"
      (U64.checkedAdd req.after (min available limit))
    let batches ← readAdmissionInterval space store req.after through
    let response : PullResponse := ⟨req.after, through, batches⟩
    match response.validateDense with
    | .error _ => .error (.panic "server constructed a malformed dense pull")
    | .ok () => .ok response

end Reads

end Homebase.Server
