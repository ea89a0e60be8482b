import Homebase.Client.World
import Homebase.Properties.Shipping

set_option autoImplicit false

/-!
# Properties: one turn of a push

A push that runs alone, one turn of its loop at a time: what it asks of its surroundings, how the
server answers in terms of the ledger, and what the loop makes of the answer.
-/

namespace Homebase.Properties

open Foundation Homebase.Core Server Client Ledger List
  Homebase.Refine

/-! ## A push on its own -/

/-- Nothing else happens: the primitive that is awaited as number `i` is executed with choice `i`
of the surroundings. -/
def Alone (sha256 : Bytes → ByteArr 32) (choices : Nat → Choice) (op : Primitive)
    (s : Shared × Nat) (reply : Reply op) (t : Shared × Nat) : Prop :=
  execute sha256 (choices s.2) op s.1 = (reply, t.1) ∧ t.2 = s.2 + 1

/-- The reply and the state that `Alone` is about. -/
def alone (sha256 : Bytes → ByteArr 32) (choices : Nat → Choice) (op : Primitive)
    (s : Shared × Nat) : Reply op × Shared × Nat :=
  let executed := execute sha256 (choices s.2) op s.1
  (executed.1, executed.2, s.2 + 1)

theorem alone_spec (sha256 : Bytes → ByteArr 32) (choices : Nat → Choice) (op : Primitive)
    (s : Shared × Nat) :
    Alone sha256 choices op s (alone sha256 choices op s).1 (alone sha256 choices op s).2 :=
  ⟨rfl, rfl⟩

/-- What is executed alone has one outcome. -/
theorem eval_iff_of_alone {α : Type} {sha256 : Bytes → ByteArr 32} {choices : Nat → Choice}
    {program : Prog Reply α} {s t : Shared × Nat} {a : α}
    (h : Prog.Eval (Alone sha256 choices) program s a t) (b : α) (u : Shared × Nat) :
    Prog.Eval (Alone sha256 choices) program s b u ↔ b = a ∧ u = t := by
  refine h.iff_of_functional ?_ b u
  rintro op s reply t reply' t' ⟨hexec, hcount⟩ ⟨hexec', hcount'⟩
  obtain ⟨hreply, hstate⟩ := Prod.ext_iff.mp (hexec'.symm.trans hexec)
  exact ⟨hreply, Prod.ext hstate (hcount'.trans hcount.symm)⟩

/-- The push cap, and a server that answers every request, at times at which the same leases are
live. -/
structure Still (sha256 : Bytes → ByteArr 32) (space : SpaceId) (s : Shared) (now : Timestamp)
    (cap : U64) (choices : Nat → Choice) : Prop where
  cap : ∀ i, (choices i).pushCap = cap
  answered : ∀ i, ∃ time, (choices i).fate = .answered time ∧
    allLive space (run sha256 space (s.verbs space)).store time =
      allLive space (run sha256 space (s.verbs space)).store now

/-- Every request is answered, at a time at which the same leases of a table are live. -/
def Steady (leases : Leases) (now : Timestamp) (choices : Nat → Choice) : Prop :=
  ∀ i, ∃ time, (choices i).fate = .answered time ∧
    ∀ id record, leases id = some record → record.isLive time = record.isLive now

/-- What the client sees of an admission. -/
def answerTo : Except Exit (AdmissionResponse × Space) → Except SpaceError AdmissionResponse
  | .ok (response, _) => .ok response
  | .error (.response response) => .ok response
  | .error (.failure (.kernel error)) => .error (.kernel error)
  | .error (.failure (.panic _)) => .error .unavailable

/-- The ledger after an admission. -/
def ledgerAfter (L : Space) : Except Exit (AdmissionResponse × Space) → Space
  | .ok (_, L') => L'
  | .error _ => L

/-- Where a push stands that started at `start`: only the records of its space and the log of the
server have moved. -/
structure Standing (sha256 : Bytes → ByteArr 32) (space : SpaceId) (leases : Leases)
    (start s : Shared) (r : SpaceRecords) (L : Space) : Prop where
  store : s.store = start.store.setRecords space r
  server : Denotes sha256 space (run sha256 space (s.verbs space)).store L
  demand : (run sha256 space (s.verbs space)).demand =
    (run sha256 space (start.verbs space)).demand
  valid : L.Valid sha256 space
  leases : L.leases = leases

namespace Standing

variable {sha256 : Bytes → ByteArr 32} {space : SpaceId} {leases : Leases} {start s : Shared}
  {r : SpaceRecords} {L : Space}

/-- Pushes that stand at the same place left the same behind. -/
theorem unique {t : Shared} (h : Standing sha256 space leases start s r L)
    (h' : Standing sha256 space leases start t r L) :
    s.store = t.store ∧ run sha256 space (s.verbs space) = run sha256 space (t.verbs space) := by
  refine ⟨h.store.trans h'.store.symm, ?_⟩
  have hdemand := h.demand.trans h'.demand.symm
  have hstore := h.server.unique h'.server
  cases hs : run sha256 space (s.verbs space)
  cases ht : run sha256 space (t.verbs space)
  rw [hs, ht] at hdemand hstore
  exact congrArg₂ SpaceState.mk hdemand hstore

theorem get (h : Standing sha256 space leases start s r L) :
    s.store.spaces.get space = some r := by
  rw [h.store]
  exact OrdMap.get_insert_self _ _ _

theorem records (h : Standing sha256 space leases start s r L) : s.records space = r := by
  rw [Shared.records, h.store, MetaStore.records_setRecords_self]

/-- A request of the device is answered as the ledger says. -/
theorem request (h : Standing sha256 space leases start s r L) {time now : Timestamp}
    (hlive : ∀ id record, leases id = some record → record.isLive time = record.isLive now)
    (device : DeviceId) (checksum : DeviceChecksum) (evidence : List LeaseId)
    (batches : List AdmissionBatch) :
    (execServer sha256 (.answered time) space
        (.admitRequest ⟨device, checksum, evidence, batches⟩) s).1 =
      answerTo (specAdmit sha256 space L now ⟨device, checksum, [], batches⟩) ∧
    Standing sha256 space leases start
      (execServer sha256 (.answered time) space
        (.admitRequest ⟨device, checksum, evidence, batches⟩) s).2 r
      (ledgerAfter L (specAdmit sha256 space L now ⟨device, checksum, [], batches⟩)) := by
  have hspec := admit_spec h.server h.valid time ⟨device, checksum, evidence, batches⟩
  have hstill : specAdmit sha256 space L time ⟨device, checksum, evidence, batches⟩ = _ :=
    specAdmit_still (h.leases.symm ▸ hlive) device checksum evidence batches
  have hverbs : ((execServer sha256 (.answered time) space
      (.admitRequest ⟨device, checksum, evidence, batches⟩) s).2).verbs space =
        s.verbs space ++ [.admitRequest time ⟨device, checksum, evidence, batches⟩] := by
    simp [execServer, Shared.deliver, Shared.send, ServerCall.verb]
  have hrun : run sha256 space (((execServer sha256 (.answered time) space
      (.admitRequest ⟨device, checksum, evidence, batches⟩) s).2).verbs space) =
        ⟨(run sha256 space (s.verbs space)).demand,
          (Server.admitRequest sha256 space (run sha256 space (s.verbs space)).store time
            ⟨device, checksum, evidence, batches⟩).2⟩ := by
    rw [hverbs, run_concat]
    rfl
  rw [hstill] at hspec
  cases ho : specAdmit sha256 space L now ⟨device, checksum, [], batches⟩ with
  | ok o =>
    obtain ⟨response, L'⟩ := o
    rw [ho] at hspec
    obtain ⟨hanswer, hserver⟩ := hspec
    refine ⟨?_, h.store, ?_, ?_, (Step.admitRequest ho).valid h.valid, ?_⟩
    · change answerOf _ = _
      rw [hanswer]
      rfl
    · rw [hrun]
      exact hserver
    · rw [hrun]
      exact h.demand
    · obtain ⟨-, last, added, -, -, -, -, rfl⟩ := specAdmit_eq_ok_iff.mp ho
      exact h.leases
  | error exit =>
    rw [ho] at hspec
    have hsame : (Server.admitRequest sha256 space (run sha256 space (s.verbs space)).store time
        ⟨device, checksum, evidence, batches⟩).2 = (run sha256 space (s.verbs space)).store := by
      cases exit <;> rw [hspec]
    refine ⟨?_, h.store, ?_, ?_, h.valid, h.leases⟩
    · change answerOf _ = _
      cases exit with
      | response response => rw [hspec]; rfl
      | failure failure => rw [hspec]; cases failure <;> rfl
    · rw [hrun, hsame]
      exact h.server
    · rw [hrun]
      exact h.demand

/-- An acknowledgement through a row of the window. -/
theorem acknowledge (h : Standing sha256 space leases start s r L) (choice : Choice)
    {seq : DeviceSeq} (hneck : r.oplogCursors.neck ≤ seq) (hlt : seq < r.oplogCursors.tail)
    (checksum : DeviceChecksum) :
    execute sha256 choice (.trimOplog space seq checksum) s =
        (.ok (), s.update space (r.trimmed seq checksum)) ∧
      Standing sha256 space leases start (s.update space (r.trimmed seq checksum))
        (r.trimmed seq checksum) L := by
  refine ⟨?_, ?_, h.server, h.demand, h.valid, h.leases⟩
  · rw [execute, h.records, trimOplog_of_mem hneck hlt]
    rfl
  · change s.store.setRecords space _ = _
    rw [h.store, MetaStore.setRecords, MetaStore.setRecords, MetaStore.setRecords,
      OrdMap.insert_insert]

end Standing

/-! ## One turn of the loop -/

section Turn

variable {sha256 : Bytes → ByteArr 32} {space : SpaceId} {device : DeviceId}
  {through : Option DeviceSeq} {choices : Nat → Choice} {s : Shared} {i : Nat}

/-- A primitive that is executed without a fault. -/
theorem eval_next {β : Type} {op : Primitive} {a : op.Answer} {next : op.Answer → Act β}
    {s₁ : Shared} {result : Except Fault β} {t : Shared × Nat}
    (hexec : execute sha256 (choices i) op s = (.ok a, s₁))
    (hnext : Prog.Eval (Alone sha256 choices) (next a).run (s₁, i + 1) result t) :
    Prog.Eval (Alone sha256 choices) (ask op >>= next).run (s, i) result t :=
  eval_ask_bind (show Alone sha256 choices op (s, i) (.ok a) (s₁, i + 1) from ⟨hexec, rfl⟩) hnext

theorem load_get (r : SpaceRecords) (hget : s.store.spaces.get space = some r) :
    s.store.load.spaces.get space = some r.load := by
  rw [MetaStore.load, OrdMap.get_mapValues, hget]
  rfl

variable {r : SpaceRecords}

/-- A turn that finds the window empty. -/
theorem eval_drained (hget : s.store.spaces.get space = some r)
    (htarget : settledTarget through r.oplogCursors = none)
    (hle : r.oplogCursors.tail ≤ r.oplogCursors.neck) (st : PushState) :
    Prog.Eval (Alone sha256 choices) (pushStep sha256 device space through st).run (s, i)
      (.ok (.inr (PushRun.drained st.acked st.targetAdmission))) (s, i + 1) := by
  refine eval_next (show execute sha256 (choices i) .load s = (.ok s.store.load, s) from rfl) ?_
  simp only [load_get r hget]
  rw [show settledTarget through r.load.cursors = none from htarget]
  dsimp only
  rw [if_pos (show r.load.cursors.tail ≤ r.load.cursors.neck from hle)]
  exact .done _ _

/-- The leases of the client are read at some time of its clock. -/
theorem eval_liveWriteLeases (keys : List Key) : ∃ evidence,
    Prog.Eval (Alone sha256 choices) (liveWriteLeases space keys).run (s, i) (.ok evidence)
      ({ s with wall := (choices i).stamp.wall }, i + 2) :=
  ⟨_, eval_next rfl (eval_next rfl (.done _ _))⟩

variable (device) in
/-- A turn that finds rows: it comes to the answer to the request for a group of them. -/
theorem eval_request (hget : s.store.spaces.get space = some r)
    (htarget : settledTarget through r.oplogCursors = none)
    (hlt : r.oplogCursors.neck < r.oplogCursors.tail) (st : PushState)
    {head last : DeviceSeq × DeviceOp} {rest group : List (DeviceSeq × DeviceOp)}
    (hread : r.oplogRows r.oplogCursors.neck
      (windowEnd through r.oplogCursors (choices (i + 1)).cap) = head :: rest)
    (hshipped : shippedRows st.probe (choices (i + 1)).cap head rest = head :: group)
    (hlast : (head :: group).getLast? = some last) :
    ∃ evidence, ∀ result t,
      Prog.Eval (Alone sha256 choices)
        (pushAnswer sha256 device space through r.oplogCursors r.confirmed head.1 last.1
          (head :: group).length st
          (execServer sha256 (choices (i + 5)).fate space
            (.admitRequest ⟨device, r.confirmed, evidence, batchesOf (head :: group)⟩)
            { s with wall := (choices (i + 3)).stamp.wall }).1).run
        ((execServer sha256 (choices (i + 5)).fate space
          (.admitRequest ⟨device, r.confirmed, evidence, batchesOf (head :: group)⟩)
          { s with wall := (choices (i + 3)).stamp.wall }).2, i + 6) result t →
      Prog.Eval (Alone sha256 choices) (pushStep sha256 device space through st).run (s, i)
        result t := by
  have hrecords : s.records space = r := by rw [Shared.records, MetaStore.records, hget]; rfl
  obtain ⟨evidence, hevidence⟩ : ∃ evidence, Prog.Eval (Alone sha256 choices)
      (liveWriteLeases space (shippedKeys (batchesOf (head :: group)))).run (s, i + 3)
      (.ok evidence) ({ s with wall := (choices (i + 3)).stamp.wall }, i + 5) :=
    eval_liveWriteLeases _
  refine ⟨evidence, fun result t hanswer => ?_⟩
  refine eval_next (show execute sha256 (choices i) .load s = (.ok s.store.load, s) from rfl) ?_
  simp only [load_get r hget]
  rw [show settledTarget through r.load.cursors = none from htarget]
  dsimp only
  rw [if_neg (show ¬ r.load.cursors.tail ≤ r.load.cursors.neck from not_le.mpr hlt)]
  refine eval_next (show execute sha256 (choices (i + 1)) .pushCap s =
    (.ok (choices (i + 1)).cap, s) from rfl) ?_
  refine eval_next (show execute sha256 (choices (i + 2)) (.oplog space r.oplogCursors.neck
    (windowEnd through r.oplogCursors (choices (i + 1)).cap)) s = (.ok (head :: rest), s) by
      rw [execute, hrecords, hread]) ?_
  change Prog.Eval _ (ExceptT.run (pushRows sha256 device space through r.oplogCursors r.confirmed
    head.1 (shippedRows st.probe (choices (i + 1)).cap head rest) st)) _ _ _
  rw [hshipped, pushRows]
  refine eval_bind hevidence (eval_next rfl ?_)
  rw [hlast, length_map]
  exact hanswer

end Turn

/-! ## What a turn makes of an answer -/

section Answer

variable {space : SpaceId} {through : Option DeviceSeq} {head last : DeviceSeq} {count : Nat}
  {response : AdmissionResponse}

theorem firstFailure_applied (seqs : List AdmissionSeq) :
    firstFailure (seqs.map .applied) = none := by
  rw [firstFailure, findSome?_eq_none_iff]
  rintro ⟨result, k⟩ hmem
  obtain ⟨seq, -, rfl⟩ := mem_map.mp (fst_mem_of_mem_zipIdx hmem)
  rfl

theorem firstFailure_failed (n : Nat) (error : KernelError) :
    firstFailure (List.replicate (n + 1) (.failed error)) = some (0, error) := by
  rw [firstFailure, replicate_succ, zipIdx_cons]
  rfl

variable {error : KernelError}

/-- A response that failed. -/
theorem pushResponse_failed (hlength : response.results.length = count)
    (hfailed : firstFailure response.results = some (0, error)) (st : PushState) :
    pushResponse space through head last count st response =
      pure (if head < last then .inl { st with probe := true }
        else .inr (PushRun.stalled (U64.ofNat (head.val + 0)) error st.acked
          st.targetAdmission)) := by
  rw [pushResponse, if_neg (not_not.mpr hlength), hfailed]
  dsimp only
  split <;> rfl

/-- A refusal that is not about the history of the device. -/
theorem pushAnswer_refused {sha256 : Bytes → ByteArr 32} {device : DeviceId}
    {cursors : OplogCursors} {confirmed : DeviceChecksum} (habout : aboutHistory error = false)
    (st : PushState) :
    pushAnswer sha256 device space through cursors confirmed head last count st
        (.error (.kernel error)) =
      pure (if head < last then .inl { st with probe := true }
        else .inr (PushRun.stalled head error st.acked st.targetAdmission)) := by
  cases error with
  | deviceChecksumMismatch seq current => cases habout
  | deviceSeqRegression current attempted => cases habout
  | _ =>
    dsimp only [pushAnswer]
    split <;> rfl

end Answer

end Homebase.Properties
