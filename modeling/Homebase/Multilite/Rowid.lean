import Homebase.Core.Tag

set_option autoImplicit false

/-!
# Multilite: rowid leases (`rowid.rs`)

A replica reserves ranges of rowids in two tables of its file: one row with the active slot and how
much of it is leased, and the slots that were ever chosen.  The shape of the tables is the one
`initialize` creates; rows keep the CHECK constraints it declares.  Both callers of this module run
in a savepoint, so a call that fails leaves the tables as they were.
-/

namespace Homebase.Multilite.Rowid

open Foundation Homebase.Core

/-! ## Constants -/

/-- `DEVICE_TAG_DOMAIN`: "multilite:rowid-device-tag:v1", closed by a zero byte. -/
def deviceTagDomain : Bytes :=
  [0x6d, 0x75, 0x6c, 0x74, 0x69, 0x6c, 0x69, 0x74, 0x65, 0x3a, 0x72, 0x6f, 0x77, 0x69, 0x64, 0x2d,
    0x64, 0x65, 0x76, 0x69, 0x63, 0x65, 0x2d, 0x74, 0x61, 0x67, 0x3a, 0x76, 0x31, 0x00]

/-- `DEVICE_TAG_BITS`. -/
def deviceTagBits : Nat := 16

/-- `RANDOM_SLOT_BITS`. -/
def randomSlotBits : Nat := 27

/-- `OFFSET_BITS`. -/
def offsetBits : Nat := 20

/-- `SLOT_CAPACITY`. -/
def slotCapacity : Nat := 1 <<< offsetBits

/-- `LEASE_SIZE`. -/
def leaseSize : Nat := 1 <<< 10

/-- `RANDOM_SLOT_MASK`. -/
def randomSlotMask : Nat := (1 <<< randomSlotBits) - 1

/-- `MAX_SLOT`. -/
def maxSlot : Nat := (1 <<< (deviceTagBits + randomSlotBits)) - 1

/-- `MAX_SLOT_ATTEMPTS`. -/
def maxSlotAttempts : Nat := 1024

/-- The errors of an allocation. -/
inductive RowidError where
  | invalidDatabase (message : String)
  | entropy (message : String)
  /-- an error of SQLite: a table that exists or is missing, a CHECK constraint -/
  | sqlite
  | panicked
  deriving DecidableEq

/-! ## Packing -/

/-- `device_tag`, with the counters that are left to try. -/
def deviceTagFrom (sha256 : Bytes → ByteArr 32) (device : DeviceId) : Nat → U32 → Option U16
  | 0, _ => none
  | left + 1, counter =>
      let digest := sha256 (deviceTagDomain ++ device.bytes ++ toBE 4 counter.val)
      let tag := Fin.ofNat (2 ^ 16) (ofBE (digest.bytes.take 2))
      if tag ≠ 0 then some tag else deviceTagFrom sha256 device left (counter + 1)

/-- `device_tag`; nothing when no counter gives a tag. -/
def deviceTag (sha256 : Bytes → ByteArr 32) (device : DeviceId) : Option U16 :=
  deviceTagFrom sha256 device (2 ^ 32) 0

/-- `slot_tag`. -/
def slotTag (slot : U64) : U16 := Fin.ofNat (2 ^ 16) (slot.val >>> randomSlotBits)

/-- The slot `insert_unused_slot` makes of a tag and a suffix. -/
def slotOf (tag : U16) (suffix : U32) : U64 :=
  U64.ofNat (tag.val <<< randomSlotBits ||| (suffix.val &&& randomSlotMask))

/-- `compose`; a value that is no `i64` panics. -/
def compose (slot : U64) (offset : U32) : Except RowidError Nat :=
  let packed := slot.val <<< offsetBits % 2 ^ 64 ||| offset.val
  if packed < 2 ^ 63 then .ok packed else .error .panicked

/-! ## Leases -/

/-- `RowidLease`. -/
structure RowidLease where
  slot : U64
  next : U32
  finish : U32
  deriving DecidableEq

/-- `RowidLease::next_rowid`: the rowid, if one is left, and the lease after it. -/
def RowidLease.nextRowid (lease : RowidLease) : Except RowidError (Option (Nat × RowidLease)) :=
  if lease.next = lease.finish then .ok none
  else (compose lease.slot lease.next).map fun rowid =>
    some (rowid, { lease with next := lease.next + 1 })

/-! ## Tables -/

/-- `DurableState`: the row of the state table. -/
structure DurableState where
  device : DeviceId
  activeSlot : U64
  leasedThrough : U32
  deriving DecidableEq

/-- The CHECK constraint on a slot. -/
def slotChecked (slot : U64) : Bool := decide (0 < slot.val) && decide (slot.val ≤ maxSlot)

/-- The CHECK constraints on the row of the state table. -/
def DurableState.checked (state : DurableState) : Bool :=
  slotChecked state.activeSlot && decide (state.leasedThrough.val ≤ slotCapacity)

/-- The two tables. -/
structure Tables where
  state : Option DurableState
  slots : OrdSet U64

/-- The file of a replica: it may not have the tables yet. -/
abbrev File : Type := Option Tables

/-- A source of random suffixes: the result of each draw. -/
abbrev Suffixes : Type := Nat → Except RowidError U32

/-- `load_state`. -/
def loadState (tables : Tables) : Except RowidError DurableState :=
  match tables.state with
  | some state => .ok state
  | none => .error (.invalidDatabase "rowid allocator state row is missing")

/-- `INSERT OR IGNORE INTO` the slots table; nothing when no row was inserted. -/
def insertSlot (slots : OrdSet U64) (slot : U64) : Option (OrdSet U64) :=
  if slotChecked slot && !slots.contains slot then some (OrdMap.insert slots slot ()) else none

/-- `insert_unused_slot`, with the attempts that are left and the draws that were made. -/
def insertUnusedSlot (tag : U16) (suffix : Suffixes) :
    Nat → Nat → OrdSet U64 → Except RowidError (U64 × OrdSet U64)
  | 0, _, _ => .error (.entropy "could not allocate an unused rowid slot")
  | attempts + 1, draw, slots => do
      let slot := slotOf tag (← suffix draw)
      match insertSlot slots slot with
      | some slots => .ok (slot, slots)
      | none => insertUnusedSlot tag suffix attempts (draw + 1) slots

/-- The compare-and-set of the state row: the tables after it and the number of rows it changed. -/
def updateState (tables : Tables) (slot : U64) (through : U32) (expectedSlot : U64)
    (expectedThrough : U32) : Except RowidError (Tables × Nat) :=
  match tables.state with
  | none => .ok (tables, 0)
  | some state =>
      if state.activeSlot = expectedSlot ∧ state.leasedThrough = expectedThrough then
        let state := { state with activeSlot := slot, leasedThrough := through }
        if state.checked then .ok ({ tables with state := some state }, 1) else .error .sqlite
      else .ok (tables, 0)

section Device

variable (sha256 : Bytes → ByteArr 32)

/-- `device_tag`, for a caller that uses it. -/
def requireTag (device : DeviceId) : Except RowidError U16 :=
  match deviceTag sha256 device with
  | some tag => .ok tag
  | none => .error .panicked

/-- `initialize`. -/
def initializeFile (device : DeviceId) (suffix : Suffixes) (file : File) : Except RowidError Tables :=
  match file with
  | some _ => .error .sqlite
  | none => do
      let tag ← requireTag sha256 device
      let (slot, slots) ← insertUnusedSlot tag suffix maxSlotAttempts 0 OrdMap.empty
      let state : DurableState := ⟨device, slot, 0⟩
      if state.checked then .ok ⟨some state, slots⟩ else .error .sqlite

/-- The slot and the offset `lease_with` leases from, and the slots after it chose them. -/
def leaseStart (tables : Tables) (state : DurableState) (suffix : Suffixes) :
    Except RowidError (U64 × U32 × OrdSet U64) :=
  if state.leasedThrough.val = slotCapacity then do
    let tag ← requireTag sha256 state.device
    let (slot, slots) ← insertUnusedSlot tag suffix maxSlotAttempts 0 tables.slots
    .ok (slot, 0, slots)
  else .ok (state.activeSlot, state.leasedThrough, tables.slots)

/-- The end of a lease that starts at an offset. -/
def leaseEnd (start : U32) : U32 :=
  U32.ofNat (min (min (start.val + leaseSize) (2 ^ 32 - 1)) slotCapacity)

/-- `lease_with`. -/
def leaseWith (tables : Tables) (suffix : Suffixes) : Except RowidError (RowidLease × Tables) := do
  let state ← loadState tables
  let (slot, start, slots) ← leaseStart sha256 tables state suffix
  let finish := leaseEnd start
  let (tables, changed) ← updateState { tables with slots } slot finish state.activeSlot
    state.leasedThrough
  if changed ≠ 1 then
    .error (.invalidDatabase "rowid allocator state changed while leasing")
  else .ok (⟨slot, start, finish⟩, tables)

/-- `lease`. -/
def lease (file : File) (suffix : Suffixes) : Except RowidError (RowidLease × Tables) :=
  match file with
  | none => .error .sqlite
  | some tables => leaseWith sha256 tables suffix

/-- `validate`. -/
def validate (file : File) : Except RowidError Unit := do
  let tables ← match file with
    | none => .error (.invalidDatabase "rowid allocator tables are missing")
    | some tables => .ok tables
  let state ← loadState tables
  let expectedTag ← requireTag sha256 state.device
  if slotTag state.activeSlot ≠ expectedTag ∨ slotCapacity < state.leasedThrough.val then
    .error (.invalidDatabase "rowid allocator state is malformed")
  else if tables.slots.toList.isEmpty || !tables.slots.contains state.activeSlot ||
      tables.slots.toList.any (fun slot =>
        decide (slot = 0) || decide (maxSlot < slot.val) || decide (slotTag slot ≠ expectedTag)) then
    .error (.invalidDatabase "rowid allocator slots are malformed")
  else .ok ()

/-! ## The allocator -/

/-- `RowidAllocator::next`: the lease of the cursor, and when it has no rowid left a new one.  `rounds`
bounds the turns of the loop; each turn may draw its own suffixes.  The file and the cursor are those
after the call, which a failed lease leaves as they are. -/
def allocate (suffix : Nat → Suffixes) :
    Nat → Nat → File × Option RowidLease → Option ((File × Option RowidLease) × Except RowidError Nat)
  | 0, _, _ => none
  | rounds + 1, turn, (file, cursor) =>
      match (cursor.map RowidLease.nextRowid).getD (.ok none) with
      | .error error => some ((file, cursor), .error error)
      | .ok (some (rowid, rest)) => some ((file, some rest), .ok rowid)
      | .ok none =>
          match lease sha256 file (suffix turn) with
          | .error error => some ((file, cursor), .error error)
          | .ok (lease, tables) => allocate suffix rounds (turn + 1) (some tables, some lease)

/-! ## Runs of a replica -/

/-- A replica: its file, the lease of the allocator's cursor, the leases that other callers hold, and
every rowid it has handed out. -/
structure Replica where
  file : File
  cursor : Option RowidLease
  leases : List RowidLease
  handed : List Nat

/-- What may happen to a replica. -/
inductive Event where
  /-- `initialize`, for a device -/
  | created (device : DeviceId) (suffix : Suffixes)
  /-- `lease`, by a caller that keeps the lease -/
  | leased (suffix : Suffixes)
  /-- `next_rowid`, on one of the leases that callers keep -/
  | drawn (holder : Nat)
  /-- `RowidAllocator::next` -/
  | allocated (suffix : Nat → Suffixes)
  /-- the process ends and another one opens the file -/
  | restarted

namespace Replica

/-- A replica without a file. -/
def new : Replica := ⟨none, none, [], []⟩

/-- The lease of a holder after a rowid was drawn from it. -/
def draw (replica : Replica) (holder : Nat) : Replica :=
  match (replica.leases[holder]?).map RowidLease.nextRowid with
  | some (.ok (some (rowid, rest))) =>
      { replica with
        leases := replica.leases.set holder rest
        handed := replica.handed ++ [rowid] }
  | _ => replica

/-- One event.  A call that fails changes nothing. -/
def step (replica : Replica) : Event → Replica
  | .created device suffix =>
      match initializeFile sha256 device suffix replica.file with
      | .ok tables => { replica with file := some tables }
      | .error _ => replica
  | .leased suffix =>
      match lease sha256 replica.file suffix with
      | .ok (lease, tables) =>
          { replica with file := some tables, leases := replica.leases ++ [lease] }
      | .error _ => replica
  | .drawn holder => replica.draw holder
  | .allocated suffix =>
      match allocate sha256 suffix 2 0 (replica.file, replica.cursor) with
      | some ((file, cursor), .ok rowid) =>
          { replica with file, cursor, handed := replica.handed ++ [rowid] }
      | some ((file, cursor), .error _) => { replica with file, cursor }
      | none => replica
  | .restarted => { replica with cursor := none, leases := [] }

/-- The replica after a sequence of events. -/
def run (events : List Event) : Replica := events.foldl (step sha256) new

end Replica

end Device

end Homebase.Multilite.Rowid
