import Homebase.Foundation.Fixed

set_option autoImplicit false

/-!
# Multilite: the pool of readers (`branch/snapshot.rs`, `database/commit_backend.rs`)

Idle readers are kept inside the transaction of their last view, under the generation of the
pool in which the view was captured.  Commit groups and captures run on the thread of the
committer; readers and snapshots are dropped on any thread.  Each event is one step of one
thread: the generation is read and advanced atomically, and the idle list changes only under
its mutex.

A connection is a value with one owner, as in the source, and carries the transaction that is
open on it.  Of SQLite itself there is only what `BEGIN`, a read and `ROLLBACK` do to that
transaction; the committed states of the database are numbered.
-/

namespace Homebase.Multilite.Views

open Foundation

/-- What is open on a connection.  `BEGIN` alone fixes no state: the first read does. -/
inductive Transaction where
  | closed
  | begun
  | pinned (version : Nat)
  deriving DecidableEq

/-- `Connection`, known by a number. -/
structure Connection where
  id : Nat
  transaction : Transaction
  deriving DecidableEq

/-- `ROLLBACK`. -/
def Connection.rollback (connection : Connection) : Connection :=
  { connection with transaction := .closed }

/-- `ReaderDisposition`. -/
inductive ReaderDisposition where
  | physical
  | view (generation : U64)
  deriving DecidableEq

/-- `IdleReader`. -/
structure IdleReader where
  connection : Connection
  viewGeneration : Option U64
  deriving DecidableEq

/-- The connection as `checkout` and `checkout_view` hand it over when its view is not reused:
a transaction is rolled back only where a generation says that there is one. -/
def IdleReader.cleared (reader : IdleReader) : Connection :=
  if reader.viewGeneration.isSome then reader.connection.rollback else reader.connection

/-- `ReaderPool`. -/
structure ReaderPool where
  idle : List IdleReader
  maxIdle : Nat
  viewGeneration : U64
  deriving DecidableEq

namespace ReaderPool

/-- `MAX_IDLE_READERS`. -/
def maxIdleReaders : Nat := 32

/-- `ReaderPool::new`. -/
def new (maxIdle : Nat) : ReaderPool := ⟨[], maxIdle, 0⟩

/-- `self.idle.lock().pop()`. -/
def pop (pool : ReaderPool) : Option (IdleReader × ReaderPool) :=
  pool.idle.getLast?.map fun reader => (reader, { pool with idle := pool.idle.dropLast })

/-- `self.view_generation.fetch_add(1, ..)`, which wraps around. -/
def bump (pool : ReaderPool) : ReaderPool :=
  { pool with viewGeneration := pool.viewGeneration + 1 }

/-- The rest of `invalidate_views`, under the mutex; `broken` are the connections on which
the authorizer cannot be cleared or `ROLLBACK` fails. -/
def retire (broken : List Nat) (pool : ReaderPool) : ReaderPool :=
  { pool with
    idle := pool.idle.filterMap fun reader =>
      match reader.viewGeneration with
      | none => some reader
      | some _ =>
        if reader.connection.id ∈ broken then none else some ⟨reader.connection.rollback, none⟩ }

/-- The last step of `recycle`, under the mutex; a full pool closes the connection. -/
def push (pool : ReaderPool) (connection : Connection) (viewGeneration : Option U64) :
    ReaderPool :=
  if pool.idle.length < pool.maxIdle then
    { pool with idle := pool.idle ++ [⟨connection, viewGeneration⟩] }
  else
    pool

end ReaderPool

/-- Where the thread of the committer is. -/
inductive Committer where
  | ready
  /-- `commit_group` has committed this state of the database -/
  | committed (version : Nat)
  /-- `invalidate_views` has advanced the generation, but not locked the idle list yet -/
  | bumped (version : Nat)
  /-- `checkout_view` has loaded the generation -/
  | loaded (generation : U64)
  /-- a reader has been popped whose view is not reused -/
  | popped (disposition : ReaderDisposition) (reader : IdleReader)
  /-- the connection has been handed to `capture` or `capture_reader` -/
  | checkedOut (disposition : ReaderDisposition) (connection : Connection)
  /-- `BEGIN` has been executed -/
  | begun (disposition : ReaderDisposition) (connection : Connection)
  /-- the first read has been made, or the view of an idle reader is reused -/
  | captured (disposition : ReaderDisposition) (connection : Connection)
  deriving DecidableEq

/-- The connection in the hands of the committer. -/
def Committer.connection : Committer → List Connection
  | .popped _ reader => [reader.connection]
  | .checkedOut _ connection | .begun _ connection | .captured _ connection => [connection]
  | .ready | .committed _ | .bumped _ | .loaded _ => []

/-- The capture for which the next connection of the pool is meant. -/
def Committer.capturing : Committer → Option ReaderDisposition
  | .ready => some .physical
  | .loaded generation => some (.view generation)
  | _ => none

/-- `PooledReader`, inside a `PinnedReader`, a `PinnedSnapshot` or a `SnapshotPin`; `before`
are the groups that were visible when it was captured. -/
structure PooledReader where
  connection : Connection
  disposition : ReaderDisposition
  before : List Nat
  deriving DecidableEq

/-- Where a call of `recycle` is. -/
inductive Phase where
  | entered (disposition : ReaderDisposition)
  /-- the transaction is to be rolled back -/
  | stale
  /-- ready to be pushed with this generation -/
  | settled (viewGeneration : Option U64)
  deriving DecidableEq

/-- A call of `recycle` on some thread. -/
structure Recycling where
  connection : Connection
  phase : Phase
  deriving DecidableEq

/-- The first step of `recycle`, against the generation of the moment. -/
def ReaderDisposition.compare (current : U64) : ReaderDisposition → Phase
  | .physical => .stale
  | .view generation => if generation = current then .settled (some generation) else .stale

/-- The pool, its connections, and the database they read. -/
structure World where
  pool : ReaderPool
  committer : Committer
  held : List PooledReader
  recycling : List Recycling
  /-- The number of connections opened so far. -/
  opened : Nat
  /-- The newest committed state of the database. -/
  version : Nat
  /-- The states committed by the groups whose `commit_group` call returned `Ok`. -/
  groups : List Nat
  deriving DecidableEq

/-- `SnapshotCache::new`, on an empty history. -/
def World.new : World := ⟨.new ReaderPool.maxIdleReaders, .ready, [], [], 0, 0, []⟩

/-- The steps of the committer. -/
inductive Turn where
  /-- `commit_group`, and within it `invalidate_views` -/
  | commit
  | bump
  | retire (broken : List Nat)
  /-- `checkout_view` loads the generation; a snapshot checks a connection out at once -/
  | load
  | pop
  | «open»
  | clear
  | begin
  | read
  | give
  /-- `recycle` of a reader that is not returned: the files changed, or the authorizer of the
  view was refused -/
  | putBack
  /-- an error that closes the connection, if there is one yet -/
  | fail
  deriving DecidableEq

/-- One step of one thread. -/
inductive Event where
  | committer (turn : Turn)
  /-- a commit outside of a successful group: a rowid lease, or a group that failed after all -/
  | write
  /-- the owner of a reader drops it, which calls `recycle` -/
  | drop (reader : PooledReader)
  | compare (task : Recycling)
  | rollback (task : Recycling)
  /-- `recycle` returns because the authorizer or the transaction stays -/
  | lose (task : Recycling)
  | push (task : Recycling)
  deriving DecidableEq

namespace World

/-- A reader of the pool reaches the committer: the view is reused when its generation is the
one just loaded, and is otherwise to be cleared. -/
def receive (disposition : ReaderDisposition) (reader : IdleReader) : Committer :=
  match disposition, reader.viewGeneration with
  | .view generation, some kept =>
    if kept = generation then .captured disposition reader.connection
    else .popped disposition reader
  | _, _ => .popped disposition reader

/-- What a step of the committer does. -/
def advance (world : World) : Turn → Option World
  | .commit =>
    match world.committer with
    | .ready =>
      some { world with version := world.version + 1, committer := .committed (world.version + 1) }
    | _ => none
  | .bump =>
    match world.committer with
    | .committed version => some { world with pool := world.pool.bump, committer := .bumped version }
    | _ => none
  | .retire broken =>
    match world.committer with
    | .bumped version =>
      some { world with
        pool := world.pool.retire broken
        committer := .ready
        groups := world.groups ++ [version] }
    | _ => none
  | .load =>
    match world.committer with
    | .ready => some { world with committer := .loaded world.pool.viewGeneration }
    | _ => none
  | .pop =>
    match world.committer.capturing, world.pool.pop with
    | some disposition, some (reader, pool) =>
      some { world with pool, committer := receive disposition reader }
    | _, _ => none
  | .open =>
    match world.committer.capturing, world.pool.pop with
    | some disposition, none =>
      some { world with
        committer := .checkedOut disposition ⟨world.opened, .closed⟩
        opened := world.opened + 1 }
    | _, _ => none
  | .clear =>
    match world.committer with
    | .popped disposition reader =>
      some { world with committer := .checkedOut disposition reader.cleared }
    | _ => none
  | .begin =>
    match world.committer with
    | .checkedOut disposition connection =>
      some { world with committer := .begun disposition { connection with transaction := .begun } }
    | _ => none
  | .read =>
    match world.committer with
    | .begun disposition connection =>
      some { world with
        committer :=
          .captured disposition { connection with transaction := .pinned world.version } }
    | _ => none
  | .give =>
    match world.committer with
    | .captured disposition connection =>
      some { world with
        held := world.held ++ [⟨connection, disposition, world.groups⟩], committer := .ready }
    | _ => none
  | .putBack =>
    match world.committer with
    | .captured disposition connection =>
      some { world with
        recycling := world.recycling ++ [⟨connection, .entered disposition⟩], committer := .ready }
    | _ => none
  | .fail =>
    match world.committer with
    | .committed _ | .bumped _ => none
    | _ => some { world with committer := .ready }

/-- A call of `recycle` goes on as `task'`. -/
def replace (world : World) (task task' : Recycling) : World :=
  { world with recycling := world.recycling.erase task ++ [task'] }

/-- What one step of one thread does. -/
def step (world : World) : Event → Option World
  | .committer turn => world.advance turn
  | .write => some { world with version := world.version + 1 }
  | .drop reader =>
    if reader ∈ world.held then
      some { world with
        held := world.held.erase reader
        recycling := world.recycling ++ [⟨reader.connection, .entered reader.disposition⟩] }
    else none
  | .compare task =>
    match task.phase with
    | .entered disposition =>
      if task ∈ world.recycling then
        some (world.replace task
          ⟨task.connection, disposition.compare world.pool.viewGeneration⟩)
      else none
    | _ => none
  | .rollback task =>
    if task ∈ world.recycling ∧ task.phase = .stale then
      some (world.replace task ⟨task.connection.rollback, .settled none⟩)
    else none
  | .lose task =>
    if task ∈ world.recycling ∧ task.phase = .stale then
      some { world with recycling := world.recycling.erase task }
    else none
  | .push task =>
    match task.phase with
    | .settled viewGeneration =>
      if task ∈ world.recycling then
        some { world with
          pool := world.pool.push task.connection viewGeneration
          recycling := world.recycling.erase task }
      else none
    | _ => none

/-- The connections in the hands of every owner. -/
def connections (world : World) : List Connection :=
  world.pool.idle.map (·.connection) ++ world.committer.connection
    ++ world.held.map (·.connection) ++ world.recycling.map (·.connection)

/-- Every owner of a connection, by the number of the connection. -/
def owned (world : World) : List Nat := world.connections.map (·.id)

end World

end Homebase.Multilite.Views
