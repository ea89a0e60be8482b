import Homebase.Server.SchemaRecords

set_option autoImplicit false

/-!
# Server: the lease verbs (`server/src/space/lease.rs`)

The state machine behind `acquire`, `renew`, `release` and `list_leases`, and the
reservation check that admission runs.  The lease table lives in the store under
two indexes; the contention-demand set is the only state in memory.

A verb returns its outcome together with the state it leaves behind.  Every verb
applies at most one write batch, and `acquire` applies the purge of expired
records also when it reports a conflict.
-/

namespace Homebase.Server

open Foundation Homebase.Core

/-- The state of one space: the demand set of its `LeaseManager` and the store. -/
structure SpaceState where
  demand : Finset LeaseId
  store : Store

/-! ## Record accessors -/

/-- A record under a storage key, decoded with an `expect`. -/
def readRecord {α : Type} (store : Store) (key : Bytes) (decode : Bytes → Option α)
    (message : String) : Except Failure (Option α) :=
  match store.get key with
  | none => .ok none
  | some bytes => (expect message (decode bytes)).map some

variable {α : Type} {store : Store} {key : Bytes}

theorem readRecord_of_get_none (decode : Bytes → Option α) (message : String)
    (h : store.get key = none) : readRecord store key decode message = .ok none := by
  simp [readRecord, h]

theorem readRecord_of_get_some {bytes : Bytes} {decode : Bytes → Option α} (message : String)
    {record : α} (h : store.get key = some bytes) (hd : decode bytes = some record) :
    readRecord store key decode message = .ok (some record) := by
  simp [readRecord, h, hd, Except.map]

/-- `counters`; the data plane and the lease manager have the same one. -/
def counters (space : SpaceId) (store : Store) : Except Failure CountersRecord :=
  (readRecord store (countersKey space) CountersRecord.decode "corrupt counters record").map
    fun record => record.getD CountersRecord.default

/-- `LeaseManager::lease_by_id`. -/
def leaseById (space : SpaceId) (store : Store) (id : LeaseId) :
    Except Failure (Option LeaseRecord) :=
  readRecord store (leaseByIdKey space id) LeaseRecord.decode "corrupt lease record"

/-- The rows under a byte prefix; `BTreeMap::range` panics on an inverted range. -/
def rowsUnder (store : Store) (base : Bytes) : Except Failure (List (Bytes × Bytes)) :=
  expect "range start is greater than range end in BTreeMap" (store.scanPrefix base)

/-- A scan over lease records: each value is decoded with an `expect`. -/
def leasesUnder (store : Store) (base : Bytes) : Except Failure (List LeaseRecord) := do
  let rows ← rowsUnder store base
  rows.mapM fun row => expect "corrupt lease record" (LeaseRecord.decode row.2)

/-- The leases of several scans, in scan order. -/
def leasesUnderAll (store : Store) (bases : List Bytes) : Except Failure (List LeaseRecord) := do
  let found ← bases.mapM (leasesUnder store)
  .ok found.flatten

/-- `LeaseManager::covering`: live leases at an ancestor of the key or at the key. -/
def covering (space : SpaceId) (store : Store) (now : Timestamp) (key : Key) :
    Except Failure (List LeaseRecord) := do
  let depths := (List.range key.components.length).map (· + 1)
  let records ← leasesUnderAll store
    (depths.map fun depth => leaseByPrefixScan space depth (key.components.take depth))
  .ok (records.filter fun record => record.isLive now)

/-- `LeaseManager::all_live`. -/
def allLive (space : SpaceId) (store : Store) (now : Timestamp) :
    Except Failure (List LeaseRecord) := do
  let records ← leasesUnder store (leaseByIdScan space)
  .ok (records.filter fun record => record.isLive now)

/-- The scans of `LeaseManager::overlapping`, one per depth. -/
def overlappingScans (space : SpaceId) (leasePrefix : Key) : List Bytes :=
  ((List.range maxComponents).map (· + 1)).map fun depth =>
    leaseByPrefixScan space depth
      (leasePrefix.components.take (min depth leasePrefix.components.length))

/-- `LeaseManager::overlapping`: the overlapping leases, split into live and dead. -/
def overlapping (space : SpaceId) (store : Store) (now : Timestamp) (leasePrefix : Key) :
    Except Failure (List LeaseRecord × List LeaseRecord) := do
  let records ← leasesUnderAll store (overlappingScans space leasePrefix)
  .ok (records.filter fun record => record.isLive now,
    records.filter fun record => !record.isLive now)

/-- `LeaseManager::put_records`. -/
def putRecords (space : SpaceId) (batch : WriteBatch) (record : LeaseRecord) : WriteBatch :=
  (batch.put (leaseByIdKey space record.id) record.encode).put
    (leaseByPrefixKey space record.leasePrefix record.id) record.encode

/-- `LeaseManager::purge_records`. -/
def purgeRecords (space : SpaceId) (batch : WriteBatch) (records : List LeaseRecord) :
    WriteBatch :=
  records.foldl (fun batch record =>
    (batch.delete (leaseByIdKey space record.id)).delete
      (leaseByPrefixKey space record.leasePrefix record.id)) batch

/-- `public_lease`. -/
def publicLease (record : LeaseRecord) : Lease where
  id := record.id
  leasePrefix := record.leasePrefix
  mode := record.mode
  requestedAt := record.requestedAt
  grantedAt := record.grantedAt
  ttl := record.ttl
  barrier := record.barrier

/-! ## Acquire -/

/-- What stops an acquire: the conflicting prefix, when to retry, and the ids on
which demand is registered. -/
structure Contention where
  conflict : Key
  retryAfter : Option Duration
  blockers : List LeaseId
  deriving DecidableEq

/-- `blockers.iter().map(|rec| rec.deadline.0).max()`; the blockers are not empty. -/
def worstDeadline (blockers : List LeaseRecord) : Timestamp :=
  (blockers.map LeaseRecord.deadline).foldl max 0

/-- The first loop of `acquire`: conflicts against live leases in the store. -/
def checkSpecs (space : SpaceId) (store : Store) (now : Timestamp) :
    List LeaseSpec → WriteBatch → Except Failure (WriteBatch × Option Contention)
  | [], purge => .ok (purge, none)
  | spec :: rest, purge => do
      let (live, expired) ← overlapping space store now spec.leasePrefix
      let purge := purgeRecords space purge expired
      let blockers := live.filter fun record => !spec.mode.compatibleWith record.mode
      if blockers = [] then checkSpecs space store now rest purge
      else
        let retryAfter := Duration.fromMillis (U64.saturatingSub (worstDeadline blockers) now)
        .ok (purge, some ⟨spec.leasePrefix, some retryAfter, blockers.map LeaseRecord.id⟩)

/-- Whether two specs of one request exclude each other. -/
def specsConflict (a b : LeaseSpec) : Bool :=
  (a.leasePrefix.startsWith b.leasePrefix || b.leasePrefix.startsWith a.leasePrefix) &&
    !a.mode.compatibleWith b.mode

/-- The second loop of `acquire`: conflicts within the request itself. -/
def selfConflict : List LeaseSpec → Option Key
  | [] => none
  | a :: rest =>
      match rest.find? (specsConflict a) with
      | some b => some b.leasePrefix
      | none => selfConflict rest

/-- The grants of `acquire` so far. -/
structure Grants where
  counters : CountersRecord
  batch : WriteBatch
  leases : List Lease

/-- The record `acquire` writes for one spec. -/
def grantedRecord (now : Timestamp) (req : AcquireRequest) (barrier : AdmissionSeq) (id : LeaseId)
    (spec : LeaseSpec) : LeaseRecord where
  id := id
  leasePrefix := spec.leasePrefix
  mode := spec.mode
  device := req.device
  requestedAt := req.requestedAt
  grantedAt := now
  barrier := barrier
  deadline := now.saturatingAdd spec.ttl
  ttl := spec.ttl

/-- `value + 1`, in a build with overflow checks. -/
def addOne (value : U64) : Except Failure U64 :=
  expect "attempt to add with overflow" (value.checkedAdd 1)

/-- The grant loop of `acquire`. -/
def grantSpecs (space : SpaceId) (now : Timestamp) (req : AcquireRequest)
    (barrier : AdmissionSeq) : List LeaseSpec → Grants → Except Failure Grants
  | [], grants => .ok grants
  | spec :: rest, grants => do
      let record := grantedRecord now req barrier grants.counters.nextLeaseId spec
      let nextLeaseId ← addOne grants.counters.nextLeaseId
      grantSpecs space now req barrier rest
        { counters := { grants.counters with nextLeaseId := nextLeaseId }
          batch := putRecords space grants.batch record
          leases := grants.leases ++ [publicLease record] }

/-- Everything `acquire` does once no conflict was found. -/
def grant (space : SpaceId) (store : Store) (now : Timestamp) (req : AcquireRequest)
    (purge : WriteBatch) : Except Failure (List Lease × Store) := do
  let current ← counters space store
  let grants ← grantSpecs space now req current.admissionHighWater req.specs ⟨current, purge, []⟩
  .ok (grants.leases, store.apply (grants.batch.put (countersKey space) grants.counters.encode))

/-- `LeaseManager::acquire`. -/
def acquire (space : SpaceId) (state : SpaceState) (now : Timestamp) (req : AcquireRequest) :
    Except Failure (List Lease) × SpaceState :=
  match checkSpecs space state.store now req.specs WriteBatch.new with
  | .error failure => (.error failure, state)
  | .ok (purge, some contention) =>
      (.error (.kernel (.contended contention.conflict contention.retryAfter)),
        ⟨state.demand ∪ contention.blockers.toFinset, state.store.apply purge⟩)
  | .ok (purge, none) =>
      match selfConflict req.specs with
      | some conflict =>
          (.error (.kernel (.contended conflict none)),
            { state with store := state.store.apply purge })
      | none =>
          match grant space state.store now req purge with
          | .error failure => (.error failure, state)
          | .ok (leases, store) => (.ok leases, { state with store := store })

/-! ## Renew, release, list -/

/-- The record a renewal writes. -/
def renewedRecord (now : Timestamp) (req : RenewRequest) (record : LeaseRecord) : LeaseRecord :=
  { record with
    deadline := now.saturatingAdd record.ttl
    grantedAt := now
    requestedAt := req.requestedAt }

/-- One iteration of the loop of `renew`. -/
def renewOne (space : SpaceId) (state : SpaceState) (now : Timestamp) (req : RenewRequest)
    (acc : WriteBatch × RenewResponse) (id : LeaseId) :
    Except Failure (WriteBatch × RenewResponse) := do
  let (batch, response) := acc
  match ← leaseById space state.store id with
  | some record =>
      if record.isLive now ∧ record.device = req.device then
        let renewed := renewedRecord now req record
        let granted : RenewGrant := ⟨id, now, renewed.ttl, decide (id ∈ state.demand)⟩
        .ok (putRecords space batch renewed,
          { response with granted := response.granted ++ [granted] })
      else
        let batch := if record.isLive now then batch else purgeRecords space batch [record]
        .ok (batch, { response with invalid := response.invalid ++ [id] })
  | none => .ok (batch, { response with invalid := response.invalid ++ [id] })

/-- `LeaseManager::renew`. -/
def renew (space : SpaceId) (state : SpaceState) (now : Timestamp) (req : RenewRequest) :
    Except Failure RenewResponse × SpaceState :=
  match req.leases.foldlM (renewOne space state now req) (WriteBatch.new, ⟨[], []⟩) with
  | .error failure => (.error failure, state)
  | .ok (batch, response) => (.ok response, { state with store := state.store.apply batch })

/-- One iteration of the loop of `release`. -/
def releaseOne (space : SpaceId) (store : Store) (now : Timestamp) (req : ReleaseRequest)
    (acc : WriteBatch × Finset LeaseId) (id : LeaseId) :
    Except Failure (WriteBatch × Finset LeaseId) := do
  let (batch, demand) := acc
  match ← leaseById space store id with
  | some record =>
      if !record.isLive now ∨ record.device = req.device then
        .ok (purgeRecords space batch [record], demand.erase id)
      else .ok (batch, demand)
  | none => .ok (batch, demand)

/-- `LeaseManager::release`. -/
def release (space : SpaceId) (state : SpaceState) (now : Timestamp) (req : ReleaseRequest) :
    Except Failure Unit × SpaceState :=
  match req.leases.foldlM (releaseOne space state.store now req)
      (WriteBatch.new, state.demand) with
  | .error failure => (.error failure, state)
  | .ok (batch, demand) => (.ok (), ⟨demand, state.store.apply batch⟩)

/-- `LeaseManager::list_leases`. -/
def listLeases (space : SpaceId) (state : SpaceState) (now : Timestamp)
    (req : ListLeasesRequest) : Except Failure (List Lease) × SpaceState :=
  match leasesUnder state.store (leaseByIdScan space) with
  | .error failure => (.error failure, state)
  | .ok records =>
      let held := records.filter fun record => record.isLive now && record.device = req.device
      let expired := records.filter fun record => !record.isLive now
      (.ok (held.map publicLease),
        { state with store := state.store.apply (purgeRecords space WriteBatch.new expired) })

/-! ## The reservation check -/

/-- The error of a conflicting point write. -/
def validateKey (space : SpaceId) (store : Store) (now : Timestamp) (device : DeviceId)
    (key : Key) : Except Failure Unit := do
  let live ← covering space store now key
  if live.any fun record => decide (record.device ≠ device) then
    .error (.kernel (.contended key none))
  else .ok ()

/-- The error of a conflicting range write. -/
def validateRange (space : SpaceId) (store : Store) (now : Timestamp) (device : DeviceId)
    (range : Range) : Except Failure Unit := do
  let live ← match range with
    | .full => allLive space store now
    | .prefixed p => (overlapping space store now p).map Prod.fst
  if live.any fun record => decide (record.device ≠ device) then
    .error (.kernel (.rangeContended range none))
  else .ok ()

/-- `LeaseManager::validate_writes`; presented evidence is never read. -/
def validateWrites (space : SpaceId) (store : Store) (now : Timestamp) (device : DeviceId)
    (_evidence : List LeaseId) (keys : List Key) (ranges : List Range) : Except Failure Unit := do
  keys.forM (validateKey space store now device)
  ranges.forM (validateRange space store now device)

end Homebase.Server
