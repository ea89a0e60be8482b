import Homebase.Client.Calls

set_option autoImplicit false

/-!
# Client: the operations of one space (`client/src/space.rs`)

What a submission is encoded as, and releasing leases, as a program over the primitives
it awaits.  The permit of the space is not part of a program.

A device and a cipher are what a handle to an attached space knows.
-/

namespace Homebase.Client

open Foundation Homebase.Core

/-! ## Leases, judged locally -/

/-- `MIN_LEASE_MARGIN`. -/
def minLeaseMargin : Duration := ⟨10 * 1000000⟩

/-- `lease_margin`. -/
def leaseMargin (ttl : Duration) : Duration := ⟨max (ttl.nanos / 1000) minLeaseMargin.nanos⟩

/-- `lease_live`. -/
def leaseLive (held : HeldLease) (now : HybridTimestamp) : Bool :=
  !held.deadline.expired now (leaseMargin held.lease.ttl)

/-- `lease_usable`. -/
def leaseUsable (held : HeldLease) (now : HybridTimestamp) (neck : AdmissionSeq) : Bool :=
  !held.forgotten && leaseLive held now && decide (held.lease.barrier < neck)

/-- `live_write_leases`. -/
def liveWriteLeases (space : SpaceId) (keys : List Key) : Act (List LeaseId) := do
  let now ← ask .stamp
  let held ← ask (.leasesCovering space keys)
  pure ((held.filter fun held => decide (held.lease.mode = .write) &&
    (!held.forgotten && leaseLive held now)).map fun held => held.lease.id)

/-- `lease_usable_for_held`. -/
def leaseUsableForHeld (space : SpaceId) (held : HeldLease) (now : HybridTimestamp) : Act Bool := do
  let cursors ← ask (.admitCursors space)
  pure (leaseUsable held now cursors.neck)

/-! ## Submitting -/

section Submit

variable (crypto : Crypto) (mode : CipherMode) (device : DeviceId) (space : SpaceId)

/-- The name encoding of one mutation. -/
def encodeMutation : Mutation Bytes → Except CipherError (Mutation Bytes)
  | .set key value => do .ok (.set (← mode.encodeKey crypto key) value)
  | .delete key => do .ok (.delete (← mode.encodeKey crypto key))
  | .deleteRange range => do .ok (.deleteRange (← mode.encodeRange crypto range))

/-- The name encoding of one assertion. -/
def encodeAssert (assertion : RangeAssert) : Except CipherError RangeAssert := do
  .ok ⟨← mode.encodeKey crypto assertion.assertPrefix, assertion.upto⟩

/-- A failure of the cipher. -/
def orCipher {α : Type} : Except CipherError α → Except Fault α
  | .ok a => .ok a
  | .error error => .error (.cipher error)

/-- `encode_submission`. -/
def encodeSubmission (mutations : List (Mutation Bytes)) (rangeAsserts : List RangeAssert) :
    Except CipherError (List (Mutation Bytes) × List RangeAssert) := do
  let mutations ← mutations.mapM (encodeMutation crypto mode)
  let rangeAsserts ← rangeAsserts.mapM (encodeAssert crypto mode)
  .ok (mutations, rangeAsserts)

/-- The entries of a reserved submission: `encoded.zip(versions).zip(nonces)`, sealed. -/
def sealEntries (seq : DeviceSeq) (encoded : List (Mutation Bytes)) (versions : List Ver)
    (nonces : List ValueNonce) : Except CipherError (List SealedEntry) :=
  ((encoded.zip versions).zip nonces).mapM fun p =>
    mode.encodeDeviceEntry crypto p.1.1 ⟨device, seq, p.1.2, v1CipherEpoch⟩ p.2

end Submit

/-! ## Unleasing -/

section Lease

variable (device : DeviceId) (space : SpaceId)

/-- The first of the released leases that is usable and covers an assertion. -/
def releasedGuard (now : HybridTimestamp) (assertion : RangeAssert) :
    List HeldLease → Act (Option LeaseId)
  | [] => pure none
  | held :: rest => do
      if assertion.assertPrefix.startsWith held.lease.leasePrefix = false then
        releasedGuard now assertion rest
      else
        let usable ← leaseUsableForHeld space held now
        if usable then pure (some held.lease.id) else releasedGuard now assertion rest

/-- Whether a live lease outside `ids` covers an assertion. -/
def hasReplacement (leases : List HeldLease) (ids : List LeaseId) (now : HybridTimestamp)
    (assertion : RangeAssert) : Bool :=
  leases.any fun held => !decide (held.lease.id ∈ ids) &&
    assertion.assertPrefix.startsWith held.lease.leasePrefix &&
    (!held.forgotten && leaseLive held now)

/-- The checked assertions of the active window, with the submission of each. -/
def LoadedSpace.checkedAsserts (s : LoadedSpace) : List (DeviceSeq × RangeAssert) :=
  s.activeOplog.flatMap fun row =>
    if row.2.submitMode = some .checked then row.2.rangeAsserts.map fun a => (row.1, a) else []

/-- The loop over the checked assertions. -/
def rejectUnlease (now : HybridTimestamp) (releasing leases : List HeldLease)
    (ids : List LeaseId) : List (DeviceSeq × RangeAssert) → Act Unit
  | [] => pure ()
  | (seq, assertion) :: rest => do
      match ← releasedGuard space now assertion releasing with
      | none => rejectUnlease now releasing leases ids rest
      | some lease =>
          if hasReplacement leases ids now assertion then
            rejectUnlease now releasing leases ids rest
          else throw (.unleaseBlocked lease seq)

/-- `reject_unlease_if_checked_assertions_lose_coverage`. -/
def rejectUnleaseIfCheckedAssertionsLoseCoverage (ids : List LeaseId) : Act Unit := do
  let state ← ask .load
  match state.spaces.get space with
  | none => pure ()
  | some s =>
      let releasing := ids.filterMap s.leases.get
      if releasing = [] then pure ()
      else
        let now ← ask .stamp
        rejectUnlease space now releasing s.leases.values ids s.checkedAsserts

/-- `unlease_inner`. -/
def unleaseInner (ids : List LeaseId) : Act Unit := do
  if ids = [] then pure ()
  else
    ask (.forgetLeases space ids)
    served space (.release ⟨device, ids⟩)
    ask (.dropLeases space ids)

/-- `unlease_checked`. -/
def unleaseChecked (ids : List LeaseId) : Act Unit := do
  if ids = [] then pure ()
  else
    rejectUnleaseIfCheckedAssertionsLoseCoverage space ids
    unleaseInner device space ids

end Lease

end Homebase.Client
