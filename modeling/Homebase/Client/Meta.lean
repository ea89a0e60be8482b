import Homebase.Core.Messages
import Homebase.Foundation.Agree

set_option autoImplicit false

/-!
# Client: durable truth (`client/src/meta.rs`)

The records of one client store and the transitions of `MetaStore`, as its
reference implementation carries them out.  Every transition is one atomic step: it
returns the records it leaves behind, or an error and leaves everything as it was.

Records are kept decoded.  The one thing a record loses on its way through the
encoding is the fraction of a millisecond in the duration of a lease
(`HeldLease.normalize`).  A space has an entry from its first record on, which is
the envelope that attaching the space writes.
-/

namespace Homebase.Client

open Foundation Homebase.Core

/-! ## Records -/

/-- `OplogCursors`. -/
structure OplogCursors where
  head : DeviceSeq
  neck : DeviceSeq
  tail : DeviceSeq
  deriving DecidableEq

/-- `OplogCursors::default`. -/
def OplogCursors.default : OplogCursors := ⟨1, 1, 1⟩

/-- `AdmitCursors`. -/
structure AdmitCursors where
  head : AdmissionSeq
  neck : AdmissionSeq
  tail : AdmissionSeq
  deriving DecidableEq

/-- `AdmitCursors::default`. -/
def AdmitCursors.default : AdmitCursors := ⟨1, 1, 1⟩

/-- `HeldLease`: a grant with the deadline its holder computed. -/
structure HeldLease where
  lease : Lease
  deadline : HybridTimestamp
  forgotten : Bool
  deriving DecidableEq

/-- What is left of a held lease after it was stored. -/
def HeldLease.normalize (held : HeldLease) : HeldLease :=
  { held with lease := { held.lease with
      ttl := Duration.fromMillis held.lease.ttl.clampedMillis } }

/-- `SubmitMode`. -/
inductive SubmitMode where
  | checked
  | unchecked
  deriving DecidableEq

/-- `DeviceOp`: one row of the oplog. -/
inductive DeviceOp where
  | commit (entries : List SealedEntry) (rangeAsserts : List RangeAssert)
      (evidence : List LeaseId) (submitMode : SubmitMode)
  | rollback (marker : DeviceSeq)
  deriving DecidableEq

namespace DeviceOp

/-- `DeviceOp::commit_with_asserts`. -/
def commitWithAsserts (entries : List SealedEntry) (rangeAsserts : List RangeAssert)
    (submitMode : SubmitMode) : DeviceOp :=
  commit entries rangeAsserts [] submitMode

/-- `DeviceOp::entries`. -/
def entries : DeviceOp → List SealedEntry
  | commit entries _ _ _ => entries
  | rollback _ => []

/-- `DeviceOp::range_asserts`. -/
def rangeAsserts : DeviceOp → List RangeAssert
  | commit _ rangeAsserts _ _ => rangeAsserts
  | rollback _ => []

/-- `DeviceOp::submit_mode`. -/
def submitMode : DeviceOp → Option SubmitMode
  | commit _ _ _ submitMode => some submitMode
  | rollback _ => none

end DeviceOp

/-- The records of one space.  Leases are keyed by the prefix they cover. -/
structure SpaceRecords where
  cursors : Option OplogCursors
  checksum : Option DeviceChecksum
  verHigh : Option Ver
  oplog : OrdMap DeviceSeq DeviceOp
  admitCursors : Option AdmitCursors
  admits : OrdMap AdmissionSeq AdmittedBatch
  leases : OrdMap Key HeldLease

/-- A space without records. -/
def SpaceRecords.empty : SpaceRecords where
  cursors := none
  checksum := none
  verHigh := none
  oplog := OrdMap.empty
  admitCursors := none
  admits := OrdMap.empty
  leases := OrdMap.empty

/-- Everything a client store remembers. -/
structure MetaStore where
  device : Option DeviceId
  clock : Option Timestamp
  spaces : OrdMap SpaceId SpaceRecords

namespace MetaStore

/-- A store nothing was written to. -/
def empty : MetaStore := ⟨none, none, OrdMap.empty⟩

/-- The records of a space. -/
def records (store : MetaStore) (space : SpaceId) : SpaceRecords :=
  (store.spaces.get space).getD SpaceRecords.empty

/-- The store with other records of one space. -/
def setRecords (store : MetaStore) (space : SpaceId) (records : SpaceRecords) : MetaStore :=
  { store with spaces := store.spaces.insert space records }

theorem records_setRecords (store : MetaStore) (space other : SpaceId) (records : SpaceRecords) :
    (store.setRecords space records).records other =
      if other = space then records else store.records other := by
  simp only [MetaStore.records, setRecords, OrdMap.get_insert]
  split <;> rfl

@[simp] theorem records_setRecords_self (store : MetaStore) (space : SpaceId)
    (records : SpaceRecords) : (store.setRecords space records).records space = records := by
  rw [records_setRecords, if_pos rfl]

end MetaStore

/-! ## Errors -/

/-- The errors the transitions report themselves; a store that works has no others. -/
inductive StorageError where
  /-- "commit entry count does not match reservation" -/
  | entryCount
  /-- "malformed commit reservation: ver high below entry count" -/
  | malformedReservation
  /-- "stale commit reservation: counters advanced before commit" -/
  | staleReservation
  /-- "re-acknowledgement attempted to change the confirmed checksum" -/
  | checksumChanged
  /-- "rollback target .. outside active window [.., ..)" -/
  | rollbackTarget (target neck tail : DeviceSeq)
  /-- "oplog tail overflow during rollback" -/
  | tailOverflow
  /-- "oplog tail overflow during guarded rollback" -/
  | guardedTailOverflow
  /-- "rollback window changed: expected .., found .." -/
  | windowChanged (expected found : OplogCursors)
  /-- A page that is not dense. -/
  | density (error : PullDensityError)
  /-- "admit tail cannot be zero" -/
  | zeroAdmitTail
  /-- "pull starts after .., but admit tail expects .." -/
  | pullStart (after expected : AdmissionSeq)
  /-- "admit tail overflow" -/
  | admitTailOverflow
  /-- "admit apply target .. outside [.., ..]" -/
  | applyTarget (target neck tail : AdmissionSeq)
  /-- "admit trim target .. outside [.., ..]" -/
  | trimTarget (target head neck : AdmissionSeq)
  /-- "admit read [.., ..] outside retained window [.., ..)" -/
  | readWindow (first through head tail : AdmissionSeq)
  /-- "admit read expected .. dense batches, found .." -/
  | readCount (expected found : Nat)
  /-- "admit read sequence overflow" -/
  | readOverflow
  /-- "admit read expected .., found .." -/
  | readGap (expected found : AdmissionSeq)
  deriving DecidableEq

/-- How a transition ends without effect: an error, or a Rust panic with its message. -/
inductive StoreFault where
  | storage (error : StorageError)
  | panic (message : String)
  deriving DecidableEq

/-- `ok_or_else` with a storage error. -/
def orStorage {α : Type} (error : StorageError) : Option α → Except StoreFault α
  | some a => .ok a
  | none => .error (.storage error)

/-- A sum of the source, in a build with overflow checks. -/
def plus (a b : U64) : Except StoreFault U64 :=
  match U64.checkedAdd a b with
  | some sum => .ok sum
  | none => .error (.panic "attempt to add with overflow")

/-! ## The submit log -/

/-- `ReservedCommit`. -/
structure ReservedCommit where
  seq : DeviceSeq
  verHigh : Ver
  versions : List Ver
  rangeAsserts : List RangeAssert
  submitMode : SubmitMode
  deriving DecidableEq

/-- `Committed`. -/
structure Committed where
  seq : DeviceSeq
  verHigh : Ver
  deriving DecidableEq

namespace SpaceRecords

/-- `oplog_cursors`. -/
def oplogCursors (r : SpaceRecords) : OplogCursors := r.cursors.getD OplogCursors.default

/-- The version high-water, as read by `reserve_commit` and `commit`. -/
def currentVer (r : SpaceRecords) : Ver := r.verHigh.getD 0

/-- The checksum the server confirmed. -/
def confirmed (r : SpaceRecords) : DeviceChecksum := r.checksum.getD DeviceChecksum.empty

/-- `(0..mutation_count).map(|i| Ver(high.0 + 1 + i))`. -/
def versionsAbove (high : Ver) (count : Nat) : Except StoreFault (List Ver) :=
  if high.val + count < 2 ^ 64 then
    .ok ((List.range count).map fun i => U64.ofNat (high.val + 1 + i))
  else .error (.panic "attempt to add with overflow")

/-- `reserve_commit`. -/
def reserveCommit (r : SpaceRecords) (mutationCount : Nat) (rangeAsserts : List RangeAssert)
    (submitMode : SubmitMode) : Except StoreFault ReservedCommit := do
  let versions ← versionsAbove r.currentVer mutationCount
  .ok ⟨r.oplogCursors.tail, versions.getLast?.getD r.currentVer, versions, rangeAsserts,
    submitMode⟩

/-- `commit`. -/
def commit (r : SpaceRecords) (reserved : ReservedCommit) (entries : List SealedEntry) :
    Except StoreFault (Committed × SpaceRecords) := do
  if entries.length ≠ reserved.versions.length then .error (.storage .entryCount)
  else
    let expectedHigh ← orStorage .malformedReservation
      (U64.checkedSub reserved.verHigh (U64.ofNat entries.length))
    if r.oplogCursors.tail ≠ reserved.seq ∨ r.currentVer ≠ expectedHigh then
      .error (.storage .staleReservation)
    else
      let tail ← plus reserved.seq 1
      .ok (⟨reserved.seq, reserved.verHigh⟩,
        { r with
          oplog := r.oplog.insert reserved.seq
            (DeviceOp.commitWithAsserts entries reserved.rangeAsserts reserved.submitMode)
          cursors := some { r.oplogCursors with tail := tail }
          verHigh := some reserved.verHigh })

/-- `trim_oplog`. -/
def trimOplog (r : SpaceRecords) (through : DeviceSeq) (checksum : DeviceChecksum) :
    Except StoreFault SpaceRecords :=
  let cursors := r.oplogCursors
  if through < cursors.neck ∧ checksum ≠ r.confirmed then .error (.storage .checksumChanged)
  else
    let advanced := min (U64.saturatingAdd through 1) cursors.tail
    let head := max cursors.head advanced
    let neck := max cursors.neck advanced
    .ok { r with
      checksum := some checksum
      oplog := r.oplog.retain fun seq _ => decide (through < seq)
      cursors :=
        if head ≠ cursors.head ∨ neck ≠ cursors.neck then some ⟨head, neck, cursors.tail⟩
        else r.cursors }

/-- Whether the records are what this very rollback leaves behind. -/
def rolledBack (r : SpaceRecords) (target : DeviceSeq) : Bool :=
  decide (U64.checkedAdd r.oplogCursors.neck 1 = some r.oplogCursors.tail) &&
    decide (r.oplog.get r.oplogCursors.neck = some (.rollback target))

/-- `rollback`. -/
def rollback (r : SpaceRecords) (target : DeviceSeq) : Except StoreFault SpaceRecords := do
  let cursors := r.oplogCursors
  if target < cursors.neck ∧ r.rolledBack target = true then .ok r
  else if target < cursors.neck ∨ cursors.tail ≤ target then
    .error (.storage (.rollbackTarget target cursors.neck cursors.tail))
  else
    let nextTail ← orStorage .tailOverflow (U64.checkedAdd cursors.tail 1)
    .ok { r with
      oplog := r.oplog.insert cursors.tail (.rollback target)
      cursors := some ⟨cursors.head, cursors.tail, nextTail⟩ }

/-- `rollback_if_unchanged`. -/
def rollbackIfUnchanged (r : SpaceRecords) (target : DeviceSeq) (expected : OplogCursors) :
    Except StoreFault SpaceRecords := do
  let completedTail ← orStorage .guardedTailOverflow (U64.checkedAdd expected.tail 1)
  let completed : OplogCursors := ⟨expected.head, expected.tail, completedTail⟩
  if r.oplogCursors ≠ expected ∧ r.oplogCursors ≠ completed then
    .error (.storage (.windowChanged expected r.oplogCursors))
  else r.rollback target

/-- The rows of the oplog with `first ≤ seq ≤ through`, ascending. -/
def oplogRows (r : SpaceRecords) (first through : DeviceSeq) : List (DeviceSeq × DeviceOp) :=
  r.oplog.entries.filter fun row => decide (first ≤ row.1) && decide (row.1 ≤ through)

/-! ## The admit log -/

/-- `admit_cursors`; the field of that name holds what is stored. -/
def admitWindow (r : SpaceRecords) : AdmitCursors := r.admitCursors.getD AdmitCursors.default

/-- The greatest version of a page, zero if it has no entry. -/
def verSeen (response : PullResponse) : Ver :=
  (response.batches.flatMap AdmittedBatch.entries).foldl (fun high entry => max high entry.ver) 0

/-- `append_admits`. -/
def appendAdmits (r : SpaceRecords) (response : PullResponse) :
    Except StoreFault SpaceRecords := do
  match response.validateDense with
  | .error error => .error (.storage (.density error))
  | .ok () =>
      let cursors := r.admitWindow
      let expectedAfter ← orStorage .zeroAdmitTail (U64.checkedSub cursors.tail 1)
      if response.after ≠ expectedAfter then
        .error (.storage (.pullStart response.after expectedAfter))
      else if response.batches = [] then .ok r
      else
        let nextTail ← orStorage .admitTailOverflow (U64.checkedAdd response.through 1)
        .ok { r with
          admits := response.batches.foldl (fun m batch => m.insert batch.admissionSeq batch)
            r.admits
          admitCursors := some { cursors with tail := nextTail }
          verHigh :=
            if r.verHigh.isSome = true ∨ 0 < verSeen response then
              some (max r.currentVer (verSeen response))
            else r.verHigh }

/-- `mark_admits_applied`. -/
def markAdmitsApplied (r : SpaceRecords) (target : AdmissionSeq) : Except StoreFault SpaceRecords :=
  let cursors := r.admitWindow
  if target < cursors.neck ∨ cursors.tail < target then
    .error (.storage (.applyTarget target cursors.neck cursors.tail))
  else if target = cursors.neck then .ok r
  else .ok { r with admitCursors := some { cursors with neck := target } }

/-- `trim_admits`. -/
def trimAdmits (r : SpaceRecords) (target : AdmissionSeq) : Except StoreFault SpaceRecords :=
  let cursors := r.admitWindow
  if target < cursors.head ∨ cursors.neck < target then
    .error (.storage (.trimTarget target cursors.head cursors.neck))
  else if target = cursors.head then .ok r
  else .ok { r with
    admits := r.admits.retain fun seq _ => !(decide (cursors.head ≤ seq) && decide (seq < target))
    admitCursors := some { cursors with head := target } }

/-! ## Leases -/

/-- `leases_covering`: the point reads at the ancestors of the queries, in key order. -/
def leasesCovering (r : SpaceRecords) (prefixes : List Key) : List HeldLease :=
  let candidates : OrdMap Key Unit :=
    (prefixes.flatMap Key.ancestors).foldl (fun set key => set.insert key ()) OrdMap.empty
  candidates.entries.filterMap fun candidate => r.leases.get candidate.1

/-- The leases after some were stored. -/
def storeLeases (stored : OrdMap Key HeldLease) (leases : List HeldLease) :
    OrdMap Key HeldLease :=
  leases.foldl (fun m held => m.insert held.lease.leasePrefix held.normalize) stored

/-- `record_leases`. -/
def recordLeases (r : SpaceRecords) (leases : List HeldLease) : SpaceRecords :=
  { r with leases := storeLeases r.leases leases }

/-- `reconcile_leases`. -/
def reconcileLeases (r : SpaceRecords) (leases : List HeldLease) : SpaceRecords :=
  { r with leases := storeLeases OrdMap.empty leases }

/-- `forget_leases`. -/
def forgetLeases (r : SpaceRecords) (ids : List LeaseId) : SpaceRecords :=
  { r with leases := r.leases.mapValues fun held =>
      if held.lease.id ∈ ids then { held with forgotten := true } else held }

/-- `drop_leases`. -/
def dropLeases (r : SpaceRecords) (ids : List LeaseId) : SpaceRecords :=
  { r with leases := r.leases.retain fun _ held => decide (held.lease.id ∉ ids) }

end SpaceRecords

/-! ## Loaded state -/

/-- `SpaceState`: the slice of one space, leases by id. -/
structure LoadedSpace where
  cursors : OplogCursors
  admitCursors : AdmitCursors
  checksum : DeviceChecksum
  verHigh : Option Ver
  oplog : OrdMap DeviceSeq DeviceOp
  admits : OrdMap AdmissionSeq AdmittedBatch
  leases : OrdMap LeaseId HeldLease

/-- `SpaceState::active_oplog`. -/
def LoadedSpace.activeOplog (s : LoadedSpace) : List (DeviceSeq × DeviceOp) :=
  s.oplog.range s.cursors.neck (some s.cursors.tail)

/-- `ClientState`. -/
structure ClientState where
  device : Option DeviceId
  clockHigh : Option Timestamp
  spaces : OrdMap SpaceId LoadedSpace

/-- What `load` makes of the records of a space. -/
def SpaceRecords.load (r : SpaceRecords) : LoadedSpace where
  cursors := r.oplogCursors
  admitCursors := r.admitWindow
  checksum := r.confirmed
  verHigh := r.verHigh
  oplog := r.oplog
  admits := r.admits
  leases := r.leases.values.foldl (fun m held => m.insert held.lease.id held) OrdMap.empty

theorem SpaceRecords.get_load_leases (r : SpaceRecords) (id : LeaseId) :
    r.load.leases.get id =
      r.leases.values.reverse.find? fun held => decide (held.lease.id = id) := by
  have h := OrdMap.get_foldl_insertBy (fun held : HeldLease => held.lease.id) (fun held => held)
    r.leases.values OrdMap.empty id
  simpa [SpaceRecords.load] using h

/-- A lease that is both forgotten and dropped is dropped. -/
theorem SpaceRecords.dropLeases_forgetLeases (r : SpaceRecords) (ids : List LeaseId) :
    (r.forgetLeases ids).dropLeases ids = r.dropLeases ids := by
  simp only [dropLeases, forgetLeases, SpaceRecords.mk.injEq, true_and]
  refine OrdMap.ext_get fun key => ?_
  simp only [OrdMap.get_retain, OrdMap.get_mapValues]
  cases hget : r.leases.get key with
  | none => rfl
  | some held =>
    by_cases hid : held.lease.id ∈ ids
    · simp [hid, Option.filter_some]
    · simp [hid]

/-- What is loaded after leases were dropped. -/
theorem SpaceRecords.get_load_dropLeases (r : SpaceRecords) (ids : List LeaseId) (id : LeaseId) :
    (r.dropLeases ids).load.leases.get id =
      if id ∈ ids then none else r.load.leases.get id := by
  have hvalues : (r.dropLeases ids).leases.values =
      r.leases.values.filter fun held => decide (held.lease.id ∉ ids) := by
    simp [dropLeases, OrdMap.retain, OrdMap.values, List.filter_map, Function.comp_def]
  rw [get_load_leases, get_load_leases, hvalues, ← List.filter_reverse, List.find?_filter]
  split
  next hid =>
    refine List.find?_eq_none.mpr fun held _ => ?_
    simp only [decide_eq_true_eq, not_and]
    rintro hnot rfl
    exact hnot hid
  next hid =>
    refine congrArg (List.find? · _) (funext fun held => ?_)
    by_cases heq : held.lease.id = id
    · simp [heq, hid]
    · simp [heq]

/-- `load`. -/
def MetaStore.load (store : MetaStore) : ClientState where
  device := store.device
  clockHigh := store.clock
  spaces := store.spaces.mapValues SpaceRecords.load

end Homebase.Client
