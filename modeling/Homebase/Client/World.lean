import Homebase.Client.Session
import Homebase.Server.Space

set_option autoImplicit false

/-!
# Client: what a primitive does

One client store, the space servers it talks to and the effect of each primitive on
them.  The fate of a request decides whether it is executed and whether the response
arrives: a request that got lost on the way back was executed, a delayed one may be
executed at any later time, and in both cases the caller sees an unavailable server.

Next to the store and the servers, the shared state remembers what the statements
about runs speak of: every row ever appended to a submit log, the rows retired by a
rollback, how many requests were sent and answered, and the last wall reading.
-/

namespace Homebase.Client

open Foundation Homebase.Core Server

/-! ## Shared state -/

/-- A request that was sent and not executed yet. -/
structure Delayed where
  space : SpaceId
  call : ServerCall
  /-- How many requests to this space were sent before it. -/
  serial : Nat
  deriving DecidableEq

/-- What the workflows of a client share. -/
structure Shared where
  store : MetaStore
  /-- What each server executed so far. -/
  verbs : SpaceId → List Verb
  late : List Delayed
  sent : SpaceId → Nat
  /-- One past the serial of the last admission request that was answered. -/
  answered : SpaceId → Nat
  /-- Every row appended to the submit log; row `i` has sequence number `i + 1`. -/
  appended : SpaceId → List DeviceOp
  /-- The sequence numbers retired by rollbacks. -/
  retired : SpaceId → List DeviceSeq
  wall : Timestamp

/-- Nothing has happened. -/
def Shared.initial : Shared where
  store := MetaStore.empty
  verbs := fun _ => []
  late := []
  sent := fun _ => 0
  answered := fun _ => 0
  appended := fun _ => []
  retired := fun _ => []
  wall := 0

namespace Shared

/-- The records of a space. -/
def records (s : Shared) (space : SpaceId) : SpaceRecords := s.store.records space

/-- The row a transition appended to the submit log, if it did. -/
def appendedRow (old new : SpaceRecords) : Option DeviceOp :=
  if new.oplogCursors.tail = old.oplogCursors.tail then none
  else new.oplog.get old.oplogCursors.tail

/-- The active window, as sequence numbers. -/
def window (cursors : OplogCursors) : List DeviceSeq :=
  (List.range' cursors.neck.val (cursors.tail.val - cursors.neck.val)).map U64.ofNat

/-- The sequence numbers a transition retired. -/
def retiredBy (old new : SpaceRecords) : List DeviceSeq :=
  match appendedRow old new with
  | some (.rollback _) => window old.oplogCursors
  | some (.commit _ _ _ _) => []
  | none => []

/-- The state after a transition of the records of one space. -/
def update (s : Shared) (space : SpaceId) (new : SpaceRecords) : Shared :=
  { s with
    store := s.store.setRecords space new
    appended := Function.update s.appended space
      (s.appended space ++ (appendedRow (s.records space) new).toList)
    retired := Function.update s.retired space
      (s.retired space ++ retiredBy (s.records space) new) }

/-- A fallible transition of the records of one space. -/
def transition {α : Type} (s : Shared) (space : SpaceId)
    (result : Except StoreFault (α × SpaceRecords)) : Except Fault α × Shared :=
  match result with
  | .ok (a, new) => (.ok a, s.update space new)
  | .error fault => (.error fault.toFault, s)

/-- A server executes a verb. -/
def deliver (s : Shared) (space : SpaceId) (verb : Verb) : Shared :=
  { s with verbs := Function.update s.verbs space (s.verbs space ++ [verb]) }

/-- A request is sent. -/
def send (s : Shared) (space : SpaceId) : Shared :=
  { s with sent := Function.update s.sent space (s.sent space + 1) }

end Shared

/-! ## The server of a space -/

/-- The verb a request is executed as. -/
def ServerCall.verb (now : Timestamp) : ServerCall → Verb
  | admitRequest req => .admitRequest now req
  | acquire req => .acquire now req
  | renew req => .renew now req
  | release req => .release now req
  | listLeases req => .listLeases now req
  | pull req => .pull req

/-- The outcome of a verb, as a client sees it; a panicking server is unavailable. -/
def answerOf {α : Type} : Except Failure α → Except SpaceError α
  | .ok a => .ok a
  | .error (.kernel error) => .error (.kernel error)
  | .error (.panic _) => .error .unavailable

/-- What a server answers after `verbs`. -/
def serve (sha256 : Bytes → ByteArr 32) (space : SpaceId) (verbs : List Verb) (now : Timestamp) :
    (call : ServerCall) → Except SpaceError call.Response
  | .admitRequest req =>
      answerOf (Server.admitRequest sha256 space (run sha256 space verbs).store now req).1
  | .acquire req => answerOf (Server.acquire space (run sha256 space verbs) now req).1
  | .renew req => answerOf (Server.renew space (run sha256 space verbs) now req).1
  | .release req => answerOf (Server.release space (run sha256 space verbs) now req).1
  | .listLeases req => answerOf (Server.listLeases space (run sha256 space verbs) now req).1
  | .pull req => answerOf (Server.pull space (run sha256 space verbs).store req)

/-- A page that did not come from the kernel; no other response is forged. -/
def forge (page : PullResponse) : (call : ServerCall) → Except SpaceError call.Response
  | .pull _ => .ok page
  | .admitRequest _ => .error .unavailable
  | .acquire _ => .error .unavailable
  | .renew _ => .error .unavailable
  | .release _ => .error .unavailable
  | .listLeases _ => .error .unavailable

/-! ## Primitives -/

/-- What becomes of a request. -/
inductive Fate where
  /-- Executed at `now`, and the response arrives. -/
  | answered (now : Timestamp)
  /-- Executed at `now`, and the response is lost. -/
  | lost (now : Timestamp)
  /-- Not executed yet. -/
  | delayed
  /-- A pull answered by something else than the kernel. -/
  | forged (page : PullResponse)
  deriving DecidableEq

/-- What the surroundings contribute to one primitive. -/
structure Choice where
  stamp : HybridTimestamp
  nonce : Option ValueNonce
  pushCap : U64
  fate : Fate

/-- The push cap in force; `with_push_cap` accepts no zero. -/
def Choice.cap (choice : Choice) : U64 := max 1 choice.pushCap

/-- Whether a request asks for admission. -/
def ServerCall.isAdmit : ServerCall → Bool
  | admitRequest _ => true
  | acquire _ => false
  | renew _ => false
  | release _ => false
  | listLeases _ => false
  | pull _ => false

/-- A request and its fate. -/
def execServer (sha256 : Bytes → ByteArr 32) (fate : Fate) (space : SpaceId) (call : ServerCall)
    (s : Shared) : Except SpaceError call.Response × Shared :=
  match fate with
  | .answered now =>
      (serve sha256 space (s.verbs space) now call,
        { (s.send space).deliver space (call.verb now) with
          answered := if call.isAdmit then Function.update s.answered space (s.sent space + 1)
            else s.answered })
  | .lost now => (.error .unavailable, (s.send space).deliver space (call.verb now))
  | .delayed =>
      (.error .unavailable, { s.send space with late := s.late ++ [⟨space, call, s.sent space⟩] })
  | .forged page => (forge page call, s.send space)

/-- A result together with the records a store transition left behind. -/
def done (result : Except StoreFault SpaceRecords) : Except StoreFault (Unit × SpaceRecords) :=
  result.map fun r => ((), r)

/-- One primitive: its reply and the state it leaves behind. -/
def execute (sha256 : Bytes → ByteArr 32) (choice : Choice) :
    (op : Primitive) → Shared → Reply op × Shared
  | .load, s => (.ok s.store.load, s)
  | .recordDevice device, s => (.ok (), { s with store := { s.store with device := some device } })
  | .recordClock wall, s => (.ok (), { s with store := { s.store with clock := some wall } })
  | .reserveCommit space count rangeAsserts submitMode, s =>
      (((s.records space).reserveCommit count rangeAsserts submitMode).mapError StoreFault.toFault,
        s)
  | .commit space reserved entries, s =>
      s.transition space ((s.records space).commit reserved entries)
  | .trimOplog space through checksum, s =>
      s.transition space (done ((s.records space).trimOplog through checksum))
  | .rollback space target, s => s.transition space (done ((s.records space).rollback target))
  | .rollbackIfUnchanged space target expected, s =>
      s.transition space (done ((s.records space).rollbackIfUnchanged target expected))
  | .oplogCursors space, s => (.ok (s.records space).oplogCursors, s)
  | .oplog space first through, s => (.ok ((s.records space).oplogRows first through), s)
  | .admitCursors space, s => (.ok (s.records space).admitWindow, s)
  | .appendAdmits space response, s =>
      s.transition space (done ((s.records space).appendAdmits response))
  | .markAdmitsApplied space target, s =>
      s.transition space (done ((s.records space).markAdmitsApplied target))
  | .trimAdmits space target, s =>
      s.transition space (done ((s.records space).trimAdmits target))
  | .leasesCovering space prefixes, s => (.ok ((s.records space).leasesCovering prefixes), s)
  | .recordLeases space leases, s =>
      (.ok (), s.update space ((s.records space).recordLeases leases))
  | .reconcileLeases space leases, s =>
      (.ok (), s.update space ((s.records space).reconcileLeases leases))
  | .forgetLeases space ids, s => (.ok (), s.update space ((s.records space).forgetLeases ids))
  | .dropLeases space ids, s => (.ok (), s.update space ((s.records space).dropLeases ids))
  | .server space call, s =>
      (.ok (execServer sha256 choice.fate space call s).1,
        (execServer sha256 choice.fate space call s).2)
  | .stamp, s => (.ok choice.stamp, { s with wall := choice.stamp.wall })
  | .nextNonce, s => (match choice.nonce with | some nonce => .ok nonce | none => .error .nonce, s)
  | .pushCap, s => (.ok choice.cap, s)

end Homebase.Client
