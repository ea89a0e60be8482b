import Homebase.Server.Data

set_option autoImplicit false

/-!
# Server: one space as a state machine (`server/src/space/mod.rs`)

`Space` composes the lease table with the data plane over one store.  Verbs run
one at a time; a run is the sequence of verbs issued to a space that starts
with an empty store.  The admissions of a run are read off its responses: a
batch counts as admitted when the response to its request applied it.
-/

namespace Homebase.Server

open Foundation Homebase.Core

/-- The verbs of `Space`, with the clock reading the source passes to each. -/
inductive Verb where
  | acquire (now : Timestamp) (req : AcquireRequest)
  | renew (now : Timestamp) (req : RenewRequest)
  | release (now : Timestamp) (req : ReleaseRequest)
  | listLeases (now : Timestamp) (req : ListLeasesRequest)
  | admitRequest (now : Timestamp) (req : AdmissionRequest)
  | pull (req : PullRequest)
  | get (req : GetRequest)
  | list (req : ListRequest)
  | readAt (req : ReadAtRequest)
  deriving DecidableEq

/-- The clock reading of a verb; the pure reads take none. -/
def Verb.now? : Verb → Option Timestamp
  | acquire now _ => some now
  | renew now _ => some now
  | release now _ => some now
  | listLeases now _ => some now
  | admitRequest now _ => some now
  | pull _ => none
  | get _ => none
  | list _ => none
  | readAt _ => none

/-- The state of a space on an empty store. -/
def SpaceState.initial : SpaceState := ⟨∅, OrdMap.empty⟩

/-- One admitted batch as its author learns of it. -/
structure Admission where
  seq : AdmissionSeq
  device : DeviceId
  batch : AdmissionBatch
  deriving DecidableEq

/-- The admitted entries of a batch: position `i` is operation `i` of the sequence. -/
def Admission.entries (admission : Admission) : List Entry :=
  admission.batch.entries.zipIdx.map fun p => ⟨p.1, ⟨admission.seq, U32.ofNat p.2⟩⟩

/-- The entries of a log in admission order. -/
def events (log : List Admission) : List Entry := log.flatMap Admission.entries

/-- The batches of a request that a response applied. -/
def applied (device : DeviceId) : List AdmissionBatch → List AdmissionResult → List Admission
  | batch :: batches, .applied seq :: results =>
      ⟨seq, device, batch⟩ :: applied device batches results
  | _ :: batches, .failed _ :: results => applied device batches results
  | _, _ => []

section Run

variable (sha256 : Bytes → ByteArr 32) (space : SpaceId)

/-- The state after a verb. -/
def exec (state : SpaceState) : Verb → SpaceState
  | .acquire now req => (acquire space state now req).2
  | .renew now req => (renew space state now req).2
  | .release now req => (release space state now req).2
  | .listLeases now req => (listLeases space state now req).2
  | .admitRequest now req => { state with store := (admitRequest sha256 space state.store now req).2 }
  | .pull _ => state
  | .get _ => state
  | .list _ => state
  | .readAt _ => state

/-- What a verb admits. -/
def admissions (state : SpaceState) : Verb → List Admission
  | .admitRequest now req =>
      match (admitRequest sha256 space state.store now req).1 with
      | .ok response => applied req.device req.batches response.results
      | .error _ => []
  | _ => []

/-- The state after a sequence of verbs. -/
def runFrom (state : SpaceState) (verbs : List Verb) : SpaceState :=
  verbs.foldl (exec sha256 space) state

/-- The admissions of a sequence of verbs, in order. -/
def logFrom (state : SpaceState) : List Verb → List Admission
  | [] => []
  | verb :: rest =>
      admissions sha256 space state verb ++ logFrom (exec sha256 space state verb) rest

/-- The state of a space after a run. -/
def run (verbs : List Verb) : SpaceState := runFrom sha256 space SpaceState.initial verbs

/-- The admissions of a run. -/
def log (verbs : List Verb) : List Admission := logFrom sha256 space SpaceState.initial verbs

@[simp] theorem run_nil : run sha256 space [] = SpaceState.initial := rfl

@[simp] theorem log_nil : log sha256 space [] = [] := rfl

theorem run_concat (verbs : List Verb) (verb : Verb) :
    run sha256 space (verbs ++ [verb]) = exec sha256 space (run sha256 space verbs) verb := by
  simp [run, runFrom, List.foldl_append]

theorem logFrom_append (state : SpaceState) (xs ys : List Verb) :
    logFrom sha256 space state (xs ++ ys) =
      logFrom sha256 space state xs ++
        logFrom sha256 space (runFrom sha256 space state xs) ys := by
  induction xs generalizing state with
  | nil => rfl
  | cons verb rest ih => simp [logFrom, runFrom, ih]

theorem log_concat (verbs : List Verb) (verb : Verb) :
    log sha256 space (verbs ++ [verb]) =
      log sha256 space verbs ++ admissions sha256 space (run sha256 space verbs) verb := by
  simp [log, logFrom_append, logFrom, run]

/-- A log only grows. -/
theorem log_append (xs ys : List Verb) :
    log sha256 space (xs ++ ys) =
      log sha256 space xs ++ logFrom sha256 space (run sha256 space xs) ys :=
  logFrom_append sha256 space SpaceState.initial xs ys

end Run

end Homebase.Server
