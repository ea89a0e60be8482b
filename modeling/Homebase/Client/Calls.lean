import Homebase.Client.Meta
import Homebase.Client.Cipher
import Homebase.Foundation.Program

set_option autoImplicit false

/-!
# Client: what a workflow awaits

A workflow of the client is a program over the primitives it awaits: the reads and
transitions of its store, the verbs of a space server, a stamp of the hybrid clock,
a nonce and the push cap of the session.  Between two of them other workflows of
the same client run.

`ask` is one such step.  Everything a workflow does in between is pure.
-/

namespace Homebase.Client

open Foundation Homebase.Core

/-! ## Errors -/

/-- `SpaceError`: what a server answers instead of a response. -/
inductive SpaceError where
  | kernel (error : KernelError)
  | unavailable
  deriving DecidableEq

/-- The errors of `SpaceDriverError` and `ClientError` that pushing and releasing raise, and the
panics of the client. -/
inductive Fault where
  | storage (error : StorageError)
  | cipher (error : CipherError)
  | nonce
  | unavailable
  /-- `Unavailable`, "malformed admit response: .. results for .. batches" -/
  | malformedAdmit (results batches : Nat)
  | rejected (error : KernelError)
  | fork (admitted : DeviceSeq)
  | unleaseBlocked (lease : LeaseId) (submission : DeviceSeq)
  | submissionNotPending (seq : DeviceSeq)
  | panic (message : String)
  deriving DecidableEq

/-- A fault of the store, as the client reports it. -/
def StoreFault.toFault : StoreFault → Fault
  | .storage error => .storage error
  | .panic message => .panic message

/-- `SpaceDriverError::from(SpaceError)`. -/
def SpaceError.toFault : SpaceError → Fault
  | .kernel error => .rejected error
  | .unavailable => .unavailable

/-! ## Primitives -/

/-- A request to the server of a space. -/
inductive ServerCall where
  | admitRequest (req : AdmissionRequest)
  | acquire (req : AcquireRequest)
  | renew (req : RenewRequest)
  | release (req : ReleaseRequest)
  | listLeases (req : ListLeasesRequest)
  | pull (req : PullRequest)
  deriving DecidableEq

/-- What the server responds. -/
abbrev ServerCall.Response : ServerCall → Type
  | admitRequest _ => AdmissionResponse
  | acquire _ => List Lease
  | renew _ => RenewResponse
  | release _ => Unit
  | listLeases _ => List Lease
  | pull _ => PullResponse

/-- The primitives a workflow awaits. -/
inductive Primitive where
  | load
  | recordDevice (device : DeviceId)
  | recordClock (wall : Timestamp)
  | reserveCommit (space : SpaceId) (mutationCount : Nat) (rangeAsserts : List RangeAssert)
      (submitMode : SubmitMode)
  | commit (space : SpaceId) (reserved : ReservedCommit) (entries : List SealedEntry)
  | trimOplog (space : SpaceId) (through : DeviceSeq) (checksum : DeviceChecksum)
  | rollback (space : SpaceId) (target : DeviceSeq)
  | rollbackIfUnchanged (space : SpaceId) (target : DeviceSeq) (expected : OplogCursors)
  | oplogCursors (space : SpaceId)
  | oplog (space : SpaceId) (first through : DeviceSeq)
  | admitCursors (space : SpaceId)
  | appendAdmits (space : SpaceId) (response : PullResponse)
  | markAdmitsApplied (space : SpaceId) (target : AdmissionSeq)
  | trimAdmits (space : SpaceId) (target : AdmissionSeq)
  | leasesCovering (space : SpaceId) (prefixes : List Key)
  | recordLeases (space : SpaceId) (leases : List HeldLease)
  | reconcileLeases (space : SpaceId) (leases : List HeldLease)
  | forgetLeases (space : SpaceId) (ids : List LeaseId)
  | dropLeases (space : SpaceId) (ids : List LeaseId)
  | server (space : SpaceId) (call : ServerCall)
  | stamp
  | nextNonce
  | pushCap

/-- What a primitive yields when it does not fail. -/
abbrev Primitive.Answer : Primitive → Type
  | load => ClientState
  | recordDevice _ => Unit
  | recordClock _ => Unit
  | reserveCommit _ _ _ _ => ReservedCommit
  | commit _ _ _ => Committed
  | trimOplog _ _ _ => Unit
  | rollback _ _ => Unit
  | rollbackIfUnchanged _ _ _ => Unit
  | oplogCursors _ => OplogCursors
  | oplog _ _ _ => List (DeviceSeq × DeviceOp)
  | admitCursors _ => AdmitCursors
  | appendAdmits _ _ => Unit
  | markAdmitsApplied _ _ => Unit
  | trimAdmits _ _ => Unit
  | leasesCovering _ _ => List HeldLease
  | recordLeases _ _ => Unit
  | reconcileLeases _ _ => Unit
  | forgetLeases _ _ => Unit
  | dropLeases _ _ => Unit
  | server _ call => Except SpaceError call.Response
  | stamp => HybridTimestamp
  | nextNonce => ValueNonce
  | pushCap => U64

/-- The reply to a primitive. -/
abbrev Reply (op : Primitive) : Type := Except Fault op.Answer

/-! ## Workflows -/

/-- A workflow: a program that ends with a result or a fault. -/
abbrev Act (α : Type) : Type 1 := ExceptT Fault (Prog Reply) α

/-- Awaits one primitive. -/
def ask (op : Primitive) : Act op.Answer := ExceptT.mk (Prog.perform op)

/-- A pure step that can fail. -/
def settle {α : Type} (result : Except Fault α) : Act α := ExceptT.mk (Prog.done result)

/-- A server verb whose errors end the workflow (`.await?`). -/
def served (space : SpaceId) (call : ServerCall) : Act call.Response := do
  match ← ask (.server space call) with
  | .ok response => pure response
  | .error error => throw error.toFault

/-- `loop { .. }`: the body until it leaves with `inr`. -/
def Act.iterate {β γ : Type} (body : β → Act (β ⊕ γ)) (start : β) : Act γ :=
  ExceptT.mk <| Prog.iterate (fun b => (body b).run.bind fun
    | .ok (.inl b) => .done (.inl b)
    | .ok (.inr c) => .done (.inr (.ok c))
    | .error fault => .done (.inr (.error fault))) start

/-! ### How workflows compose -/

section Compose

variable {α β : Type}

@[simp] theorem pure_run (a : α) : (pure a : Act α).run = Prog.done (.ok a) := rfl

@[simp] theorem throw_run (fault : Fault) : (throw fault : Act α).run = Prog.done (.error fault) :=
  rfl

@[simp] theorem settle_run (result : Except Fault α) : (settle result).run = Prog.done result :=
  rfl

@[simp] theorem ask_run (op : Primitive) : (ask op).run = Prog.perform op := rfl

/-- What comes after a workflow that ended. -/
def proceed (next : α → Act β) : Except Fault α → Prog Reply (Except Fault β)
  | .ok a => (next a).run
  | .error fault => .done (.error fault)

theorem bind_run (first : Act α) (next : α → Act β) :
    (first >>= next).run = first.run.bind (proceed next) := by
  refine congrArg (Prog.bind first.run) (funext fun result => ?_)
  cases result <;> rfl

section Eval

variable {σ : Type*} {exec : (op : Primitive) → σ → Reply op → σ → Prop} {s t : σ} {op : Primitive}

theorem eval_ask_iff {reply : Reply op} :
    Prog.Eval exec (ask op).run s reply t ↔ exec op s reply t := by
  rw [ask_run, Prog.perform, Prog.eval_call_iff]
  simp

variable {first : Act α} {next : α → Act β}

theorem eval_bind_ok_iff {b : β} :
    Prog.Eval exec (first >>= next).run s (.ok b) t ↔
      ∃ a s₁, Prog.Eval exec first.run s (.ok a) s₁ ∧ Prog.Eval exec (next a).run s₁ (.ok b) t := by
  rw [bind_run, Prog.eval_bind_iff]
  constructor
  · rintro ⟨result, s₁, hfirst, hnext⟩
    cases result with
    | ok a => exact ⟨a, s₁, hfirst, hnext⟩
    | error fault => simp [proceed] at hnext
  · rintro ⟨a, s₁, hfirst, hnext⟩
    exact ⟨.ok a, s₁, hfirst, hnext⟩

variable {a : α} {s₁ : σ} {result : Except Fault β}

theorem eval_bind (hfirst : Prog.Eval exec first.run s (.ok a) s₁)
    (hnext : Prog.Eval exec (next a).run s₁ result t) :
    Prog.Eval exec (first >>= next).run s result t := by
  rw [bind_run]
  exact Prog.eval_bind_iff.mpr ⟨.ok a, s₁, hfirst, hnext⟩

theorem eval_ask_bind {a : op.Answer} {next : op.Answer → Act β} (hexec : exec op s (.ok a) s₁)
    (hnext : Prog.Eval exec (next a).run s₁ result t) :
    Prog.Eval exec (ask op >>= next).run s result t :=
  eval_bind (eval_ask_iff.mpr hexec) hnext

variable {body : β → Act (β ⊕ α)} {start : β}

/-- A loop whose body asks for another turn. -/
theorem eval_iterate_again {next : β} {result : Except Fault α}
    (hbody : Prog.Eval exec (body start).run s (.ok (.inl next)) s₁)
    (hrest : Prog.Eval exec (Act.iterate body next).run s₁ result t) :
    Prog.Eval exec (Act.iterate body start).run s result t := by
  refine .loop (Prog.eval_bind_iff.mpr ⟨.inl next, s₁, ?_, hrest⟩)
  exact Prog.eval_bind_iff.mpr ⟨_, s₁, hbody, .done _ _⟩

/-- A loop whose body leaves it. -/
theorem eval_iterate_leave (hbody : Prog.Eval exec (body start).run s (.ok (.inr a)) t) :
    Prog.Eval exec (Act.iterate body start).run s (.ok a) t := by
  refine .loop (Prog.eval_bind_iff.mpr ⟨.inr (.ok a), t, ?_, .done _ _⟩)
  exact Prog.eval_bind_iff.mpr ⟨_, t, hbody, .done _ _⟩

/-- A loop whose body fails. -/
theorem eval_iterate_fail {fault : Fault}
    (hbody : Prog.Eval exec (body start).run s (.error fault) t) :
    Prog.Eval exec (Act.iterate body start).run s (.error fault) t := by
  refine .loop (Prog.eval_bind_iff.mpr ⟨.inr (.error fault), t, ?_, .done _ _⟩)
  exact Prog.eval_bind_iff.mpr ⟨_, t, hbody, .done _ _⟩

end Eval

end Compose

end Homebase.Client
