import Homebase.Foundation.Machine
import Homebase.Multilite.ReaderPool

set_option autoImplicit false

/-!
# Views are as new as the groups before them

A reader that is kept in its transaction was pinned when the pool was in the generation of its
tag, and every group that had returned by then is part of what it reads.  The pool counts the
groups that return, so a tag that equals the generation leaves no group out, as long as the
counter has not wrapped around.  A tag that a race leaves behind is harmless: it is compared
again when the reader is taken from the pool.
-/

namespace Homebase.Multilite.Views

open Foundation List

/-! ## One owner for each connection -/

section Owners

variable {world world' : World}

/-- Every connection that was opened has at most one owner, and there are no others. -/
def World.Single (world : World) : Prop :=
  ∀ id, world.owned.count id ≤ if id < world.opened then 1 else 0

theorem World.Single.nodup (h : world.Single) : world.owned.Nodup := by
  refine nodup_iff_count_le_one.mpr fun id => (h id).trans ?_
  split <;> omega

/-- The owners are counted place by place. -/
theorem World.count_owned (world : World) (id : Nat) :
    world.owned.count id =
      (world.pool.idle.map (·.connection.id)).count id
        + (world.committer.connection.map (·.id)).count id
        + (world.held.map (·.connection.id)).count id
        + (world.recycling.map (·.connection.id)).count id := by
  simp only [owned, connections, map_append, map_map, count_append]
  rfl

theorem count_map_erase {α : Type} [DecidableEq α] (f : α → Nat) {x : α} {xs : List α}
    (h : x ∈ xs) (id : Nat) :
    ((xs.erase x).map f).count id + (if f x = id then 1 else 0) = (xs.map f).count id := by
  have hperm := ((perm_cons_erase h).map f).count_eq id
  rw [hperm, map_cons, count_cons]
  simp only [beq_iff_eq]

theorem count_single (id id' : Nat) : [id].count id' = if id = id' then 1 else 0 := by
  rw [count_singleton]
  simp only [beq_iff_eq]

/-- Retiring views only closes connections. -/
theorem ReaderPool.retire_sublist (broken : List Nat) (pool : ReaderPool) :
    ((pool.retire broken).idle.map (·.connection.id)).Sublist
      (pool.idle.map (·.connection.id)) := by
  rw [retire]
  dsimp only
  induction pool.idle with
  | nil => exact List.Sublist.refl _
  | cons reader readers ih =>
    rw [filterMap_cons]
    split
    case h_1 => exact ih.cons _
    case h_2 kept hkept =>
      have hid : kept.connection.id = reader.connection.id := by
        split at hkept
        · rw [Option.some.inj hkept]
        · split at hkept
          · exact absurd hkept nofun
          · rw [← Option.some.inj hkept]
            rfl
      rw [map_cons, map_cons, hid]
      exact ih.cons_cons _

/-- Taking the last reader of the pool. -/
theorem ReaderPool.pop_eq_some {pool pool' : ReaderPool} {reader : IdleReader}
    (h : pool.pop = some (reader, pool')) :
    pool.idle = pool'.idle ++ [reader] ∧ pool'.viewGeneration = pool.viewGeneration := by
  rw [pop, Option.map_eq_some_iff] at h
  obtain ⟨last, hlast, heq⟩ := h
  obtain ⟨rfl, rfl⟩ := Prod.mk.inj heq
  exact ⟨(dropLast_append_getLast? last hlast).symm, rfl⟩

theorem World.receive_connection (disposition : ReaderDisposition) (reader : IdleReader) :
    (World.receive disposition reader).connection = [reader.connection] := by
  unfold World.receive
  split
  · split <;> rfl
  · rfl

end Owners

/-! ## What a step can do -/

/-- The steps of all threads, each with what it needs. -/
inductive World.Steps (world : World) : World → Prop
  | write : Steps world { world with version := world.version + 1 }
  | commit (h : world.committer = .ready) :
    Steps world
      { world with version := world.version + 1, committer := .committed (world.version + 1) }
  | bump (version : Nat) (h : world.committer = .committed version) :
    Steps world { world with pool := world.pool.bump, committer := .bumped version }
  | retire (version : Nat) (broken : List Nat) (h : world.committer = .bumped version) :
    Steps world { world with
      pool := world.pool.retire broken
      committer := .ready
      groups := world.groups ++ [version] }
  | load (h : world.committer = .ready) :
    Steps world { world with committer := .loaded world.pool.viewGeneration }
  | pop (disposition : ReaderDisposition) (reader : IdleReader) (pool : ReaderPool)
    (h : world.committer.capturing = some disposition)
    (hpop : world.pool.pop = some (reader, pool)) :
    Steps world { world with pool, committer := receive disposition reader }
  | «open» (disposition : ReaderDisposition)
    (h : world.committer.capturing = some disposition) :
    Steps world { world with
      committer := .checkedOut disposition ⟨world.opened, .closed⟩
      opened := world.opened + 1 }
  | clear (disposition : ReaderDisposition) (reader : IdleReader)
    (h : world.committer = .popped disposition reader) :
    Steps world { world with committer := .checkedOut disposition reader.cleared }
  | begin (disposition : ReaderDisposition) (connection : Connection)
    (h : world.committer = .checkedOut disposition connection) :
    Steps world { world with
      committer := .begun disposition { connection with transaction := .begun } }
  | read (disposition : ReaderDisposition) (connection : Connection)
    (h : world.committer = .begun disposition connection) :
    Steps world { world with
      committer := .captured disposition { connection with transaction := .pinned world.version } }
  | give (disposition : ReaderDisposition) (connection : Connection)
    (h : world.committer = .captured disposition connection) :
    Steps world { world with
      held := world.held ++ [⟨connection, disposition, world.groups⟩], committer := .ready }
  | putBack (disposition : ReaderDisposition) (connection : Connection)
    (h : world.committer = .captured disposition connection) :
    Steps world { world with
      recycling := world.recycling ++ [⟨connection, .entered disposition⟩], committer := .ready }
  | fail (hcommitted : ∀ version, world.committer ≠ .committed version)
    (hbumped : ∀ version, world.committer ≠ .bumped version) :
    Steps world { world with committer := .ready }
  | drop (reader : PooledReader) (h : reader ∈ world.held) :
    Steps world { world with
      held := world.held.erase reader
      recycling := world.recycling ++ [⟨reader.connection, .entered reader.disposition⟩] }
  | compare (task : Recycling) (disposition : ReaderDisposition) (h : task ∈ world.recycling)
    (hphase : task.phase = .entered disposition) :
    Steps world
      (world.replace task ⟨task.connection, disposition.compare world.pool.viewGeneration⟩)
  | rollback (task : Recycling) (h : task ∈ world.recycling) :
    Steps world (world.replace task ⟨task.connection.rollback, .settled none⟩)
  | lose (task : Recycling) (h : task ∈ world.recycling) :
    Steps world { world with recycling := world.recycling.erase task }
  | push (task : Recycling) (viewGeneration : Option U64) (h : task ∈ world.recycling)
    (hphase : task.phase = .settled viewGeneration) :
    Steps world { world with
      pool := world.pool.push task.connection viewGeneration
      recycling := world.recycling.erase task }

section Steps

variable {world world' : World}

theorem World.steps_of_advance {turn : Turn} (h : world.advance turn = some world') :
    world.Steps world' := by
  -- of each turn one branch goes on, and it says where the committer was
  cases turn <;> simp only [advance] at h <;> split at h <;> cases h
  · exact .commit ‹_›
  · exact .bump _ ‹_›
  · exact .retire _ _ ‹_›
  · exact .load ‹_›
  · exact .pop _ _ _ ‹_› ‹_›
  · exact .open _ ‹_›
  · exact .clear _ _ ‹_›
  · exact .begin _ _ ‹_›
  · exact .read _ _ ‹_›
  · exact .give _ _ ‹_›
  · exact .putBack _ _ ‹_›
  · exact .fail ‹_› ‹_›

/-- Every event is one of the steps. -/
theorem World.steps_of_step {event : Event} (h : world.step event = some world') :
    world.Steps world' := by
  cases event with
  | committer turn => exact steps_of_advance h
  | write => exact Option.some.inj h ▸ .write
  | drop reader =>
    simp only [step, Option.ite_none_right_eq_some] at h
    obtain ⟨hheld, heq⟩ := h
    exact Option.some.inj heq ▸ .drop reader hheld
  | compare task =>
    simp only [step] at h
    split at h
    case h_1 disposition hphase =>
      obtain ⟨hmem, heq⟩ := Option.ite_none_right_eq_some.mp h
      exact Option.some.inj heq ▸ .compare task disposition hmem hphase
    case h_2 => exact absurd h nofun
  | rollback task =>
    simp only [step, Option.ite_none_right_eq_some] at h
    obtain ⟨⟨hmem, -⟩, heq⟩ := h
    exact Option.some.inj heq ▸ .rollback task hmem
  | lose task =>
    simp only [step, Option.ite_none_right_eq_some] at h
    obtain ⟨⟨hmem, -⟩, heq⟩ := h
    exact Option.some.inj heq ▸ .lose task hmem
  | push task =>
    simp only [step] at h
    split at h
    case h_1 viewGeneration hphase =>
      obtain ⟨hmem, heq⟩ := Option.ite_none_right_eq_some.mp h
      exact Option.some.inj heq ▸ .push task viewGeneration hmem hphase
    case h_2 => exact absurd h nofun

end Steps

/-! ## Connections move from owner to owner -/

section Owners

variable {world world' : World}

theorem Committer.connection_of_capturing {committer : Committer}
    {disposition : ReaderDisposition} (h : committer.capturing = some disposition) :
    committer.connection = [] := by
  cases committer with
  | ready | loaded => rfl
  | _ => exact absurd h nofun

/-- A step takes every connection from its owner before another one gets it. -/
theorem World.Single.step (hsingle : world.Single) (h : world.Steps world') : world'.Single := by
  intro id
  have hid := hsingle id
  rw [count_owned] at hid ⊢
  cases h with
  | write => exact hid
  | commit hready | load hready | bump _ hready =>
    simp only [hready, Committer.connection] at hid
    exact hid
  | retire version broken hbumped =>
    have hretire := (ReaderPool.retire_sublist broken world.pool).count_le id
    simp only [hbumped, Committer.connection] at hid ⊢
    omega
  | pop disposition reader pool hcapturing hpop =>
    rw [Committer.connection_of_capturing hcapturing, (ReaderPool.pop_eq_some hpop).1] at hid
    simp only [map_append, count_append, map_cons, map_nil,
      receive_connection, count_nil] at hid ⊢
    omega
  | «open» disposition hcapturing =>
    rw [Committer.connection_of_capturing hcapturing] at hid
    simp only [Committer.connection, map_cons, map_nil, count_nil,
      count_single] at hid ⊢
    split_ifs at hid ⊢ <;> omega
  | clear disposition reader hpopped =>
    have hkept : reader.cleared.id = reader.connection.id := by
      rw [IdleReader.cleared]
      split <;> rfl
    simp only [hpopped, Committer.connection, map_cons, map_nil] at hid
    simp only [Committer.connection, map_cons, map_nil, hkept]
    exact hid
  | begin disposition connection hheld | read disposition connection hheld =>
    simp only [hheld, Committer.connection, map_cons, map_nil] at hid
    exact hid
  | give disposition connection hcaptured | putBack disposition connection hcaptured =>
    simp only [hcaptured, Committer.connection, map_cons, map_nil] at hid
    simp only [Committer.connection, map_append, map_cons, map_nil,
      count_append, count_nil]
    omega
  | fail =>
    simp only [Committer.connection, map_nil, count_nil]
    omega
  | drop reader hheld =>
    have herase := count_map_erase (·.connection.id) hheld id
    simp only [map_append, map_cons, map_nil, count_append, count_single]
    omega
  | compare task disposition hmem | rollback task hmem =>
    have herase := count_map_erase (·.connection.id) hmem id
    refine le_trans ?_ hid
    simp only [replace, Connection.rollback, map_append, map_cons, map_nil,
      count_append, count_single]
    omega
  | lose task hmem =>
    have herase := count_map_erase (·.connection.id) hmem id
    dsimp only
    omega
  | push task viewGeneration hmem =>
    have herase := count_map_erase (·.connection.id) hmem id
    simp only [ReaderPool.push]
    split
    · simp only [map_append, map_cons, map_nil, count_append, count_single]
      omega
    · omega

end Owners

/-! ## Tags and the groups they stand for -/

section Tags

variable {groups more : List Nat} {generation : U64} {connection : Connection}

/-- The connection reads a state that was the newest one when the pool was in a generation,
so that it holds every group that had returned by then. -/
def Tagged (groups : List Nat) (generation : U64) (connection : Connection) : Prop :=
  ∃ returned version, returned ≤ groups.length ∧ generation = U64.ofNat returned
    ∧ connection.transaction = .pinned version ∧ ∀ group ∈ groups.take returned, group ≤ version

theorem Tagged.append (h : Tagged groups generation connection) :
    Tagged (groups ++ more) generation connection := by
  obtain ⟨returned, version, hle, hgeneration, hpinned, hgroups⟩ := h
  refine ⟨returned, version, ?_, hgeneration, hpinned, ?_⟩
  · rw [length_append]
    omega
  · rwa [take_append_of_le_length hle]

/-- While the counter has not wrapped around, the current generation stands for all groups. -/
theorem Tagged.all (h : Tagged groups generation connection)
    (hcurrent : generation = U64.ofNat groups.length) (hbound : groups.length < 2 ^ 64) :
    ∃ version, connection.transaction = .pinned version ∧ ∀ group ∈ groups, group ≤ version := by
  obtain ⟨returned, version, hle, hgeneration, hpinned, hgroups⟩ := h
  have hreturned : returned = groups.length := by
    have hval := congrArg Fin.val (hgeneration.symm.trans hcurrent)
    rwa [U64.val_ofNat (by omega), U64.val_ofNat hbound] at hval
  rw [hreturned, take_length] at hgroups
  exact ⟨version, hpinned, hgroups⟩

/-- What a tag of the pool says about a connection. -/
def Kept (groups : List Nat) (connection : Connection) : Option U64 → Prop
  | none => connection.transaction = .closed
  | some generation => Tagged groups generation connection

theorem Kept.append {tag : Option U64} (h : Kept groups connection tag) :
    Kept (groups ++ more) connection tag := by
  cases tag with
  | none => exact h
  | some generation => exact Tagged.append h

/-- A reader is cleared of the transaction it was kept in. -/
theorem Kept.cleared {reader : IdleReader} (h : Kept groups reader.connection reader.viewGeneration) :
    reader.cleared.transaction = .closed := by
  rw [IdleReader.cleared]
  split
  case isTrue => rfl
  case isFalse hnone =>
    rw [Bool.not_eq_true, Option.isSome_eq_false_iff, Option.isNone_iff_eq_none] at hnone
    rw [hnone] at h
    exact h

end Tags

/-! ## The invariant -/

/-- The generation counts the groups that have returned, and the one that is about to. -/
def World.counted (world : World) : Nat :=
  match world.committer with
  | .bumped _ => world.groups.length + 1
  | _ => world.groups.length

/-- A capture is made in the generation of the pool. -/
def World.Current (world : World) (disposition : ReaderDisposition) : Prop :=
  ∀ generation, disposition = .view generation → generation = world.pool.viewGeneration

/-- A view that is about to be returned, or has been. -/
def Viewed (groups : List Nat) (connection : Connection) (disposition : ReaderDisposition) :
    Prop :=
  ∀ generation, disposition = .view generation → Tagged groups generation connection

/-- What holds of the connection in the hands of the committer. -/
def World.CommitterSound (world : World) : Committer → Prop
  | .ready => True
  | .committed version | .bumped version => version ≤ world.version
  | .loaded generation => world.Current (.view generation)
  | .popped disposition reader =>
    world.Current disposition ∧ Kept world.groups reader.connection reader.viewGeneration
  | .checkedOut disposition connection =>
    world.Current disposition ∧ connection.transaction = .closed
  | .begun disposition _ => world.Current disposition
  | .captured disposition connection =>
    world.Current disposition ∧ Viewed world.groups connection disposition

/-- What holds of a connection that is being recycled. -/
def Phase.Sound (groups : List Nat) (connection : Connection) : Phase → Prop
  | .entered disposition => Viewed groups connection disposition
  | .stale => True
  | .settled tag => Kept groups connection tag

/-- The reader reads every group that had returned when it was captured. -/
def PooledReader.Fresh (reader : PooledReader) : Prop :=
  ∃ version, reader.connection.transaction = .pinned version
    ∧ ∀ group ∈ reader.before, group ≤ version

/-- What every step keeps. -/
structure World.Sound (world : World) : Prop where
  generation : world.pool.viewGeneration = U64.ofNat world.counted
  groups : ∀ group ∈ world.groups, group ≤ world.version
  committer : world.CommitterSound world.committer
  idle : ∀ reader ∈ world.pool.idle, Kept world.groups reader.connection reader.viewGeneration
  held : ∀ reader ∈ world.held, Viewed world.groups reader.connection reader.disposition
  recycling : ∀ task ∈ world.recycling, task.phase.Sound world.groups task.connection
  fresh : ∀ reader ∈ world.held, ∀ generation, reader.disposition = .view generation →
    reader.before.length < 2 ^ 64 → reader.Fresh

section Invariant

variable {world world' : World} {connection : Connection} {disposition : ReaderDisposition}
  {groups more : List Nat}

theorem Viewed.append (h : Viewed groups connection disposition) :
    Viewed (groups ++ more) connection disposition :=
  fun generation hview => (h generation hview).append

theorem Phase.Sound.append {phase : Phase} (h : phase.Sound groups connection) :
    phase.Sound (groups ++ more) connection := by
  cases phase with
  | entered disposition => exact Viewed.append h
  | stale => trivial
  | settled tag => exact Kept.append h

/-- A view whose generation is compared keeps its tag or is to be rolled back. -/
theorem Viewed.compare (h : Viewed groups connection disposition) (current : U64) :
    (disposition.compare current).Sound groups connection := by
  cases disposition with
  | physical => trivial
  | view generation =>
    rw [ReaderDisposition.compare]
    split
    · exact h generation rfl
    · trivial

variable {reader : IdleReader}

/-- A reader of the pool reaches the committer with what its tag says. -/
theorem World.Sound.receive (hcurrent : world.Current disposition)
    (hkept : Kept world.groups reader.connection reader.viewGeneration) :
    world.CommitterSound (World.receive disposition reader) := by
  unfold World.receive
  split
  case h_1 generation kept htag =>
    rw [htag] at hkept
    split
    case isTrue hsame =>
      refine ⟨hcurrent, fun other hother => ?_⟩
      rw [← ReaderDisposition.view.inj hother, ← hsame]
      exact hkept
    case isFalse => exact ⟨hcurrent, by rwa [htag]⟩
  case h_2 => exact ⟨hcurrent, hkept⟩

theorem World.Sound.retire (h : world.Sound) (broken : List Nat) :
    ∀ reader ∈ (world.pool.retire broken).idle,
      Kept world.groups reader.connection reader.viewGeneration := by
  intro reader hreader
  obtain ⟨before, hbefore, hkept⟩ := mem_filterMap.mp hreader
  split at hkept
  · rw [← Option.some.inj hkept]
    exact h.idle before hbefore
  · split at hkept
    · exact absurd hkept nofun
    · rw [← Option.some.inj hkept]
      rfl

/-- Outside of an invalidation the generation stands for the groups that have returned. -/
theorem World.Sound.at_rest (h : world.Sound)
    (hrest : ∀ version, world.committer ≠ .bumped version) :
    world.pool.viewGeneration = U64.ofNat world.groups.length := by
  rw [h.generation, counted]
  split
  case h_1 version hbumped => exact absurd hbumped (hrest version)
  case h_2 => rfl

variable {committer : Committer}

theorem World.CommitterSound.mono
    (hgeneration : world'.pool.viewGeneration = world.pool.viewGeneration)
    (hgroups : world'.groups = world.groups) (hversion : world.version ≤ world'.version)
    (h : world.CommitterSound committer) : world'.CommitterSound committer := by
  have hcurrent : ∀ disposition, world.Current disposition → world'.Current disposition :=
    fun disposition hd generation hview => (hd generation hview).trans hgeneration.symm
  cases committer with
  | ready => trivial
  | committed version | bumped version => exact le_trans h hversion
  | loaded generation => exact hcurrent _ h
  | popped disposition reader => exact ⟨hcurrent _ h.1, hgroups ▸ h.2⟩
  | checkedOut disposition connection => exact ⟨hcurrent _ h.1, h.2⟩
  | begun disposition connection => exact hcurrent _ h
  | captured disposition connection => exact ⟨hcurrent _ h.1, hgroups ▸ h.2⟩

/-- A step of another thread leaves the committer and the groups alone. -/
theorem World.Sound.aside (h : world.Sound) (hcommitter : world'.committer = world.committer)
    (hgeneration : world'.pool.viewGeneration = world.pool.viewGeneration)
    (hgroups : world'.groups = world.groups) (hversion : world.version ≤ world'.version)
    (hidle : ∀ reader ∈ world'.pool.idle,
      Kept world.groups reader.connection reader.viewGeneration)
    (hheld : ∀ reader ∈ world'.held, reader ∈ world.held)
    (hrecycling : ∀ task ∈ world'.recycling, task.phase.Sound world.groups task.connection) :
    world'.Sound where
  generation := by rw [hgeneration, h.generation, counted, counted, hcommitter, hgroups]
  groups := fun group hgroup => (h.groups group (hgroups ▸ hgroup)).trans hversion
  committer := hcommitter ▸ CommitterSound.mono hgeneration hgroups hversion h.committer
  idle := hgroups ▸ hidle
  held := fun reader hreader => hgroups ▸ h.held reader (hheld reader hreader)
  recycling := hgroups ▸ hrecycling
  fresh := fun reader hreader => h.fresh reader (hheld reader hreader)

/-- A step of a capture leaves the pool as it is, except that it may take a reader. -/
theorem World.Sound.turn (h : world.Sound)
    (hrest : ∀ version, world.committer ≠ .bumped version)
    (hrest' : ∀ version, world'.committer ≠ .bumped version)
    (hgeneration : world'.pool.viewGeneration = world.pool.viewGeneration)
    (hgroups : world'.groups = world.groups) (hversion : world.version ≤ world'.version)
    (hcommitter : world'.CommitterSound world'.committer)
    (hidle : ∀ reader ∈ world'.pool.idle, reader ∈ world.pool.idle)
    (hheld : world'.held = world.held) (hrecycling : world'.recycling = world.recycling) :
    world'.Sound where
  generation := by
    rw [hgeneration, h.at_rest hrest, ← hgroups, counted]
    split
    case h_1 version hbumped => exact absurd hbumped (hrest' version)
    case h_2 => rfl
  groups := fun group hgroup => (h.groups group (hgroups ▸ hgroup)).trans hversion
  committer := hcommitter
  idle := fun reader hreader => hgroups ▸ h.idle reader (hidle reader hreader)
  held := hheld ▸ hgroups ▸ h.held
  recycling := hrecycling ▸ hgroups ▸ h.recycling
  fresh := hheld ▸ h.fresh

theorem Committer.ne_of_capturing (h : committer.capturing = some disposition) (version : Nat) :
    committer ≠ .bumped version := by
  rintro rfl
  exact absurd h nofun

/-- A capture starts in the generation of the pool. -/
theorem World.Sound.capturing (h : world.Sound)
    (hcapturing : world.committer.capturing = some disposition) : world.Current disposition := by
  have hcommitter := h.committer
  cases hstate : world.committer with
  | ready =>
    rw [hstate] at hcapturing
    intro generation hview
    exact absurd ((Option.some.inj hcapturing).trans hview) nofun
  | loaded generation =>
    rw [hstate] at hcapturing hcommitter
    exact Option.some.inj hcapturing ▸ hcommitter
  | _ =>
    rw [hstate] at hcapturing
    exact absurd hcapturing nofun

theorem World.receive_ne_bumped (disposition : ReaderDisposition) (reader : IdleReader)
    (version : Nat) : World.receive disposition reader ≠ .bumped version := by
  unfold World.receive
  split
  · split <;> exact nofun
  · exact nofun

theorem ReaderPool.push_viewGeneration (pool : ReaderPool) (connection : Connection)
    (tag : Option U64) : (pool.push connection tag).viewGeneration = pool.viewGeneration := by
  rw [push]
  split <;> rfl

theorem ReaderPool.mem_push {pool : ReaderPool} {tag : Option U64}
    (h : reader ∈ (pool.push connection tag).idle) :
    reader ∈ pool.idle ∨ reader = ⟨connection, tag⟩ := by
  rw [push] at h
  split at h
  · exact (mem_append.mp h).imp id mem_singleton.mp
  · exact .inl h

variable {task task' : Recycling}

theorem World.mem_replace {other : Recycling} (h : other ∈ (world.replace task task').recycling) :
    other ∈ world.recycling ∨ other = task' :=
  (mem_append.mp h).imp mem_of_mem_erase mem_singleton.mp

/-- A call of `recycle` goes on with what holds of its connection. -/
theorem World.Sound.replace (h : world.Sound)
    (htask : task'.phase.Sound world.groups task'.connection) :
    (world.replace task task').Sound := by
  refine h.aside rfl rfl rfl le_rfl h.idle (fun _ hreader => hreader) fun other hother => ?_
  obtain hold | rfl := mem_replace hother
  · exact h.recycling other hold
  · exact htask

/-- A capture is returned: the view holds every group so far. -/
theorem World.Sound.give (h : world.Sound)
    (hcaptured : world.committer = .captured disposition connection) :
    World.Sound { world with
      held := world.held ++ [⟨connection, disposition, world.groups⟩], committer := .ready } := by
  have hrest := h.at_rest fun version => by rw [hcaptured]; exact nofun
  have hcommitter := h.committer
  rw [hcaptured] at hcommitter
  obtain ⟨hcurrent, hviewed⟩ := hcommitter
  refine ⟨hrest, h.groups, trivial, h.idle, ?_, h.recycling, ?_⟩
  · intro reader hreader
    obtain hold | hnew := mem_append.mp hreader
    · exact h.held reader hold
    · rw [mem_singleton.mp hnew]
      exact hviewed
  · intro reader hreader generation hview hbound
    obtain hold | hnew := mem_append.mp hreader
    · exact h.fresh reader hold generation hview hbound
    · rw [mem_singleton.mp hnew] at hview hbound ⊢
      exact (hviewed generation hview).all ((hcurrent generation hview).trans hrest) hbound

/-- A group returns. -/
theorem World.Sound.invalidated (h : world.Sound) {version : Nat} (broken : List Nat)
    (hbumped : world.committer = .bumped version) :
    World.Sound { world with
      pool := world.pool.retire broken
      committer := .ready
      groups := world.groups ++ [version] } := by
  have hcommitter := h.committer
  have hgeneration := h.generation
  rw [hbumped] at hcommitter
  rw [counted, hbumped] at hgeneration
  refine ⟨?_, ?_, trivial, ?_, ?_, ?_, h.fresh⟩
  · refine hgeneration.trans (congrArg U64.ofNat ?_)
    change world.groups.length + 1 = (world.groups ++ [version]).length
    rw [length_append, length_singleton]
  · intro group hgroup
    obtain hold | hnew := mem_append.mp hgroup
    · exact h.groups group hold
    · rw [mem_singleton.mp hnew]
      exact hcommitter
  · exact fun reader hreader => (h.retire broken reader hreader).append
  · exact fun reader hreader => (h.held reader hreader).append
  · exact fun task htask => (h.recycling task htask).append

theorem U64.ofNat_succ (n : Nat) : U64.ofNat n + 1 = U64.ofNat (n + 1) := by
  refine Fin.ext ?_
  change (n % 2 ^ 64 + 1) % 2 ^ 64 = (n + 1) % 2 ^ 64
  omega

theorem World.Sound.step (h : world.Sound) (hstep : world.Steps world') : world'.Sound := by
  have hcommitter := h.committer
  cases hstep with
  | write =>
    exact h.aside rfl rfl rfl (Nat.le_succ _) h.idle (fun _ hreader => hreader) h.recycling
  | commit hready =>
    refine h.turn ?_ (fun version => nofun) rfl rfl (Nat.le_succ _) ?_ (fun _ => id) rfl rfl
    · exact fun version => by rw [hready]; exact nofun
    · exact le_rfl
  | bump version hcommitted =>
    rw [hcommitted] at hcommitter
    have hrest := h.at_rest fun version => by rw [hcommitted]; exact nofun
    refine ⟨?_, h.groups, hcommitter, h.idle, h.held, h.recycling, h.fresh⟩
    change world.pool.viewGeneration + 1 = U64.ofNat (world.groups.length + 1)
    rw [hrest, U64.ofNat_succ]
  | retire version broken hbumped => exact h.invalidated broken hbumped
  | load hready =>
    refine h.turn ?_ (fun version => nofun) rfl rfl le_rfl ?_ (fun _ => id) rfl rfl
    · exact fun version => by rw [hready]; exact nofun
    · exact fun generation hview => (ReaderDisposition.view.inj hview).symm
  | pop disposition reader pool hcapturing hpop =>
    obtain ⟨hidle, hgeneration⟩ := ReaderPool.pop_eq_some hpop
    refine h.turn (Committer.ne_of_capturing hcapturing) (receive_ne_bumped _ _) hgeneration rfl
      le_rfl ?_ ?_ rfl rfl
    · refine CommitterSound.mono hgeneration rfl le_rfl (Sound.receive (h.capturing hcapturing) ?_)
      exact h.idle reader (hidle ▸ mem_append_right _ (mem_singleton.mpr rfl))
    · exact fun other hother => hidle ▸ mem_append_left _ hother
  | «open» disposition hcapturing =>
    exact h.turn (Committer.ne_of_capturing hcapturing) (fun version => nofun) rfl rfl le_rfl
      ⟨h.capturing hcapturing, rfl⟩ (fun _ => id) rfl rfl
  | clear disposition reader hpopped =>
    rw [hpopped] at hcommitter
    refine h.turn ?_ (fun version => nofun) rfl rfl le_rfl ?_ (fun _ => id) rfl rfl
    · exact fun version => by rw [hpopped]; exact nofun
    · exact ⟨hcommitter.1, hcommitter.2.cleared⟩
  | begin disposition connection hout =>
    rw [hout] at hcommitter
    refine h.turn ?_ (fun version => nofun) rfl rfl le_rfl ?_ (fun _ => id) rfl rfl
    · exact fun version => by rw [hout]; exact nofun
    · exact hcommitter.1
  | read disposition connection hbegun =>
    rw [hbegun] at hcommitter
    have hrest : ∀ version, world.committer ≠ .bumped version :=
      fun version => by rw [hbegun]; exact nofun
    refine h.turn hrest (fun version => nofun) rfl rfl le_rfl ⟨hcommitter, ?_⟩ (fun _ => id) rfl rfl
    -- the newest state holds every group that has returned
    intro generation hview
    refine ⟨world.groups.length, world.version, le_rfl, ?_, rfl, ?_⟩
    · exact (hcommitter generation hview).trans (h.at_rest hrest)
    · exact fun group hgroup => h.groups group (mem_of_mem_take hgroup)
  | give disposition connection hcaptured => exact h.give hcaptured
  | putBack disposition connection hcaptured =>
    rw [hcaptured] at hcommitter
    have hrest := h.at_rest fun version => by rw [hcaptured]; exact nofun
    refine ⟨hrest, h.groups, trivial, h.idle, h.held, ?_, h.fresh⟩
    intro task htask
    obtain hold | hnew := mem_append.mp htask
    · exact h.recycling task hold
    · rw [mem_singleton.mp hnew]
      exact hcommitter.2
  | fail hcommitted hbumped =>
    exact h.turn hbumped (fun version => nofun) rfl rfl le_rfl trivial (fun _ => id) rfl rfl
  | drop reader hheld =>
    refine h.aside rfl rfl rfl le_rfl h.idle (fun _ => mem_of_mem_erase) ?_
    intro task htask
    obtain hold | hnew := mem_append.mp htask
    · exact h.recycling task hold
    · rw [mem_singleton.mp hnew]
      exact h.held reader hheld
  | compare task disposition hmem hphase =>
    have htask := h.recycling task hmem
    rw [hphase] at htask
    exact h.replace (Viewed.compare htask _)
  | rollback task hmem => exact h.replace rfl
  | lose task hmem =>
    exact h.aside rfl rfl rfl le_rfl h.idle (fun _ hreader => hreader)
      fun other hother => h.recycling other (mem_of_mem_erase hother)
  | push task tag hmem hphase =>
    have htask := h.recycling task hmem
    rw [hphase] at htask
    refine h.aside rfl (ReaderPool.push_viewGeneration _ _ _) rfl le_rfl ?_
      (fun _ hreader => hreader) fun other hother => h.recycling other (mem_of_mem_erase hother)
    intro reader hreader
    obtain hold | rfl := ReaderPool.mem_push hreader
    · exact h.idle reader hold
    · exact htask

end Invariant

/-! ## Every interleaving -/

section Runs

variable {events : List Event} {world : World}

theorem World.Sound.new : World.new.Sound :=
  ⟨rfl, nofun, trivial, nofun, nofun, nofun, nofun⟩

theorem sound_of_runs (h : Runs World.step World.new events world) : world.Sound :=
  h.invariant World.Sound (fun _ _ _ hsound hstep => hsound.step (World.steps_of_step hstep)) .new

theorem single_of_runs (h : Runs World.step World.new events world) : world.Single :=
  h.invariant World.Single (fun _ _ _ hsingle hstep => hsingle.step (World.steps_of_step hstep))
    fun _ => Nat.zero_le _

/-- In every interleaving, a view that is captured after fewer than `2 ^ 64` groups reads all of
them for as long as it is held, no connection has two owners, and a connection that is handed
to a capture has no open transaction. -/
theorem views_fresh (h : Runs World.step World.new events world) :
    (∀ reader ∈ world.held, ∀ generation, reader.disposition = .view generation →
        reader.before.length < 2 ^ 64 → reader.Fresh)
      ∧ world.owned.Nodup
      ∧ ∀ disposition connection, world.committer = .checkedOut disposition connection →
        connection.transaction = .closed := by
  have hsound := sound_of_runs h
  refine ⟨hsound.fresh, (single_of_runs h).nodup, fun disposition connection hout => ?_⟩
  have hcommitter := hsound.committer
  rw [hout] at hcommitter
  exact hcommitter.2

/-- A view is dropped while a group invalidates the pool: its tag is compared before the
generation advances and reaches the pool after the idle readers were retired.  Then another
view is captured. -/
def raced : List Event :=
  [.committer .load, .committer .open, .committer .begin, .committer .read, .committer .give,
    .drop ⟨⟨0, .pinned 0⟩, .view 0, []⟩, .committer .commit,
    .compare ⟨⟨0, .pinned 0⟩, .entered (.view 0)⟩, .committer .bump, .committer (.retire []),
    .push ⟨⟨0, .pinned 0⟩, .settled (some 0)⟩,
    .committer .load, .committer .pop, .committer .clear, .committer .begin, .committer .read,
    .committer .give]

/-- The second view has the connection of the first one, but not its transaction. -/
def refreshed : World :=
  ⟨⟨[], ReaderPool.maxIdleReaders, 1⟩, .ready, [⟨⟨0, .pinned 1⟩, .view 1, [1]⟩], [], 1, 1, [1]⟩

theorem views_fresh_after_race :
    Runs World.step World.new raced refreshed
      ∧ ∀ reader ∈ refreshed.held, reader.before = [1] ∧ reader.Fresh := by
  have hruns : Runs World.step World.new raced refreshed := by decide +kernel
  refine ⟨hruns, fun reader hreader => ?_⟩
  have hfresh := (views_fresh hruns).1 reader hreader 1
  rw [mem_singleton.mp hreader] at hfresh ⊢
  exact ⟨rfl, hfresh rfl (by decide)⟩

/-! ## The counter wraps around -/

/-- A group commits and returns. -/
def groupReturns : List Event :=
  [.committer .commit, .committer .bump, .committer (.retire [])]

/-- The view of the empty history is still held after so many groups. -/
def outlived (groups : Nat) : World where
  pool := ⟨[], ReaderPool.maxIdleReaders, U64.ofNat groups⟩
  committer := .ready
  held := [⟨⟨0, .pinned 0⟩, .view 0, []⟩]
  recycling := []
  opened := 1
  version := groups
  groups := List.range' 1 groups

theorem outlived_succ (groups : Nat) :
    Runs World.step (outlived groups) groupReturns (outlived (groups + 1)) := by
  have hgroups : List.range' 1 groups ++ [groups + 1] = List.range' 1 (groups + 1) := by
    rw [range'_concat, Nat.one_mul, Nat.add_comm 1 groups]
  have hstep : Runs World.step (outlived groups) groupReturns
      { outlived groups with
        pool := ⟨[], ReaderPool.maxIdleReaders, U64.ofNat groups + 1⟩
        version := groups + 1
        groups := List.range' 1 groups ++ [groups + 1] } := rfl
  rw [hgroups, U64.ofNat_succ] at hstep
  exact hstep

theorem outlived_runs (groups : Nat) :
    Runs World.step (outlived 0) (List.replicate groups groupReturns).flatten
      (outlived groups) := by
  induction groups with
  | zero => rfl
  | succ groups ih =>
    rw [replicate_succ', flatten_append, flatten_singleton]
    exact Runs.append_iff.mpr ⟨_, ih, outlived_succ groups⟩

/-- The view is dropped in a generation of the same number and reused by the next capture. -/
theorem reused_runs {groups : Nat} (hwrap : U64.ofNat groups = 0) :
    Runs World.step (outlived groups)
      [.drop ⟨⟨0, .pinned 0⟩, .view 0, []⟩, .compare ⟨⟨0, .pinned 0⟩, .entered (.view 0)⟩,
        .push ⟨⟨0, .pinned 0⟩, .settled (some 0)⟩, .committer .load, .committer .pop,
        .committer .give]
      { outlived groups with held := [⟨⟨0, .pinned 0⟩, .view 0, List.range' 1 groups⟩] } := by
  rw [outlived, hwrap]
  rfl

theorem misses_groups (groups : Nat) (hwrap : U64.ofNat groups = 0) (hpos : 0 < groups) :
    ∃ events world, Runs World.step World.new events world
      ∧ ∃ reader ∈ world.held, reader.disposition = .view 0 ∧ reader.before = world.groups
        ∧ 1 ∈ reader.before ∧ ¬ reader.Fresh := by
  have hfirst : Runs World.step World.new
      [.committer .load, .committer .open, .committer .begin, .committer .read, .committer .give]
      (outlived 0) := rfl
  have hone : 1 ∈ List.range' 1 groups := mem_range'_1.mpr ⟨le_rfl, by omega⟩
  have hruns := Runs.append_iff.mpr ⟨_, hfirst, Runs.append_iff.mpr
    ⟨_, outlived_runs groups, reused_runs hwrap⟩⟩
  refine ⟨_, _, hruns, _, mem_singleton.mpr rfl, rfl, rfl, hone, ?_⟩
  rintro ⟨version, hpinned, hall⟩
  have hle := hall 1 hone
  rw [← Transaction.pinned.inj hpinned] at hle
  exact absurd hle (by decide)

/-- A view that is held while `2 ^ 64` groups return, and dropped then, is handed out again
although it holds none of them. -/
theorem view_misses_groups :
    ∃ events world, Runs World.step World.new events world
      ∧ ∃ reader ∈ world.held, reader.disposition = .view 0 ∧ reader.before = world.groups
        ∧ 1 ∈ reader.before ∧ ¬ reader.Fresh :=
  misses_groups (2 ^ 64) (Fin.ext (Nat.mod_self _)) (by norm_num)

end Runs

end Homebase.Multilite.Views
