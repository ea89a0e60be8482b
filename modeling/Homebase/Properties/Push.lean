import Homebase.Properties.PushTurn
import Homebase.Properties.Visibility

set_option autoImplicit false

/-!
# Properties: the push cap is unobservable

A push ships its window in groups, retries the head of a refused group alone and goes back to
groups behind it.  Against a server that nobody else changes, it ends as shipping row by row
does, whatever the cap: every turn of the loop moves on in `shipEach`, or it turns to the head
of the group without having changed anything.
-/

namespace Homebase.Properties

open Foundation Homebase.Core Server Client Ledger List
  Homebase.Refine

/-! ## The loop -/

/-- The client and the server agree on the history of the device, and the target is still to come. -/
structure Synced (device : DeviceId) (through : Option DeviceSeq) (p : Progress) : Prop where
  windowed : Windowed p.records
  confirmed : p.records.confirmed = p.ledger.checksum device
  target : settledTarget through p.records.oplogCursors = none

/-- The variables of the loop. -/
def Progress.state (p : Progress) (probe : Bool) : PushState := ⟨p.acked, p.targetAdmission, probe⟩

section Loop

variable {sha256 : Bytes → ByteArr 32} {space : SpaceId} {device : DeviceId}
  {through : Option DeviceSeq} {now : Timestamp} {choices : Nat → Choice} {leases : Leases}
  {start s : Shared} {i : Nat} {p : Progress}

variable (sha256 space device through leases choices start) in
/-- The loop ends with a result; unless the server broke down, the push then stands where the
outcome says. -/
def Ends (st : PushState) (s : Shared × Nat) (outcome : Except Fault PushRun × Progress) : Prop :=
  ∃ t, Prog.Eval (Alone sha256 choices)
      (Act.iterate (pushStep sha256 device space through) st).run s outcome.1 t ∧
    (outcome.1 ≠ .error .unavailable →
      Standing sha256 space leases start t.1 outcome.2.records outcome.2.ledger)

variable {st : PushState}

theorem Ends.again {next : PushState} {s₁ : Shared × Nat}
    {outcome : Except Fault PushRun × Progress}
    (hturn : Prog.Eval (Alone sha256 choices) (pushStep sha256 device space through st).run (s, i)
      (.ok (.inl next)) s₁)
    (hends : Ends sha256 space device through choices leases start next s₁ outcome) :
    Ends sha256 space device through choices leases start st (s, i) outcome := by
  obtain ⟨t, heval, hstands⟩ := hends
  exact ⟨t, eval_iterate_again hturn heval, hstands⟩

variable {t : Shared × Nat}

theorem Ends.leave {run : PushRun}
    (hturn : Prog.Eval (Alone sha256 choices) (pushStep sha256 device space through st).run (s, i)
      (.ok (.inr run)) t) (hstands : Standing sha256 space leases start t.1 p.records p.ledger) :
    Ends sha256 space device through choices leases start st (s, i) (.ok run, p) :=
  ⟨t, eval_iterate_leave hturn, fun _ => hstands⟩

theorem Ends.fail {fault : Fault}
    (hturn : Prog.Eval (Alone sha256 choices) (pushStep sha256 device space through st).run (s, i)
      (.error fault) t)
    (hstands : fault ≠ .unavailable → Standing sha256 space leases start t.1 p.records p.ledger) :
    Ends sha256 space device through choices leases start st (s, i) (.error fault, p) :=
  ⟨t, eval_iterate_fail hturn, fun hne => hstands fun heq => hne (congrArg Except.error heq)⟩

variable (sha256 space device through now choices leases start) in
/-- A turn of the loop that asks for a group of rows and is answered as the ledger says. -/
structure Turn (r : SpaceRecords) (L : Space) (st : PushState) (s : Shared) (i : Nat)
    (head : DeviceSeq × DeviceOp) (group more : List (DeviceSeq × DeviceOp))
    (last : DeviceSeq × DeviceOp) (s₁ : Shared) : Prop where
  split : pending through r = (head :: group) ++ more
  chain : Successive (head :: group)
  last_eq : (head :: group).getLast? = some last
  probe : st.probe = true → group = []
  stands : Standing sha256 space leases start s₁ r (ledgerAfter L (specAdmit sha256 space L now
    ⟨device, r.confirmed, [], batchesOf (head :: group)⟩))
  answer : ∀ result t, Prog.Eval (Alone sha256 choices)
      (pushAnswer sha256 device space through r.oplogCursors r.confirmed head.1 last.1
        (head :: group).length st (answerTo (specAdmit sha256 space L now
          ⟨device, r.confirmed, [], batchesOf (head :: group)⟩))).run (s₁, i + 6) result t →
    Prog.Eval (Alone sha256 choices) (pushStep sha256 device space through st).run (s, i) result t

variable {L : Space}

variable (device) in
/-- A turn that finds rows takes some from the front. -/
theorem Standing.turn {r : SpaceRecords} (h : Standing sha256 space leases start s r L)
    (hlive : Steady leases now choices) (hwindow : Windowed r)
    (htarget : settledTarget through r.oplogCursors = none)
    (hlt : r.oplogCursors.neck < r.oplogCursors.tail) (st : PushState) (i : Nat) :
    ∃ head group more last s₁, Turn sha256 space device through now choices leases start r L st s i
      head group more last s₁ := by
  obtain ⟨head, rest, group, more, hread, hshipped, hsplit, hchain, hprobe⟩ :=
    hwindow.shipped htarget hlt (choices (i + 1)).cap st.probe
  obtain ⟨last, hlast⟩ : ∃ last, (head :: group).getLast? = some last :=
    ⟨_, getLast?_eq_some_getLast (cons_ne_nil _ _)⟩
  obtain ⟨evidence, hrequest⟩ := eval_request device h.get htarget hlt st hread hshipped hlast
  obtain ⟨time, hfate, hsame⟩ := hlive (i + 5)
  have hmoved : Standing sha256 space leases start
      { s with wall := (choices (i + 3)).stamp.wall } r L :=
    ⟨h.store, h.server, h.demand, h.valid, h.leases⟩
  obtain ⟨hanswer, hstands⟩ := hmoved.request hsame device r.confirmed evidence
    (batchesOf (head :: group))
  rw [hfate, hanswer] at hrequest
  exact ⟨head, group, more, last, _, hsplit, hchain, hlast, hprobe, hstands, hrequest⟩

/-- What acknowledging the rows of a group comes to. -/
theorem Synced.shipped (hsync : Synced device through p) {last : DeviceSeq}
    (hneck : p.records.oplogCursors.neck ≤ last) (hlt : last < p.records.oplogCursors.tail)
    (hbehind : reached through last = false) (head : DeviceSeq) {response : AdmissionResponse}
    (hchecksum : response.checksum = L.checksum device) :
    Synced device through (p.shipped through head last response L) where
  windowed := hsync.windowed.trimmed hneck hlt _
  confirmed := hchecksum
  target := settledTarget_trimmed hsync.target hneck hlt hbehind _

section Group

variable {probe : Bool} {head last : DeviceSeq × DeviceOp}
  {group more : List (DeviceSeq × DeviceOp)} {s₁ : Shared}

/-- A group that is admitted: the push is done, or goes on behind the group. -/
theorem Turn.admitted (h : Turn sha256 space device through now choices leases start p.records
      p.ledger (p.state probe) s i head group more last s₁)
    (hsync : Synced device through p) (hV : p.ledger.Valid sha256 space)
    {response : AdmissionResponse} {L : Space}
    (ho : specAdmit sha256 space p.ledger now
      (shipment device p.ledger (batchesOf (head :: group))) = .ok (response, L))
    (hnext : ∀ {p' : Progress} {s₂ : Shared}, pending through p'.records = more →
      Standing sha256 space leases start s₂ p'.records p'.ledger → Synced device through p' →
      Ends sha256 space device through choices leases start (p'.state false) (s₂, i + 7)
        (shipEach sha256 space now device through more p')) :
    Ends sha256 space device through choices leases start (p.state probe) (s, i)
      (shipEach sha256 space now device through (pending through p.records) p) := by
  have hmem : last ∈ pending through p.records := by
    rw [h.split]
    exact mem_append_left _ (mem_of_getLast? h.last_eq)
  have hneck := (bounds_of_mem_pending hmem).1
  have htail := hsync.windowed.lt_tail_of_mem_pending hmem
  have hstands := h.stands
  have hanswer := h.answer
  rw [hsync.confirmed] at hstands hanswer
  change specAdmit sha256 space p.ledger now ⟨device, p.ledger.checksum device, [], _⟩ = _ at ho
  rw [ho] at hstands hanswer
  obtain ⟨seqs, hresults, hlength⟩ := results_of_admitted hV ho
  have hall : firstFailure response.results = none := by
    rw [hresults]
    exact firstFailure_applied seqs
  have hcount : response.results.length = (head :: group).length := by
    rw [hresults, length_map, hlength]
    exact length_map _
  have hchecksum : response.checksum = L.checksum device := by
    obtain ⟨-, _, added, -, -, -, rfl, rfl⟩ := specAdmit_eq_ok_iff.mp ho
    exact (checksum_append device _ _).symm
  obtain ⟨hexec, hstands₂⟩ := hstands.acknowledge (choices (i + 6)) hneck htail response.checksum
  have hturn : Prog.Eval (Alone sha256 choices)
      (pushStep sha256 device space through (p.state probe)).run (s, i)
      (.ok (acknowledged through last.1 (revealed through head.1 last.1 response
        p.targetAdmission)))
      (s₁.update space (p.records.trimmed last.1 response.checksum), i + 7) := by
    refine hanswer _ _ ?_
    rw [answerTo, pushAnswer, pushResponse, if_neg (not_not.mpr hcount), hall]
    exact eval_next hexec (.done _ _)
  rw [h.split, shipEach_group h.chain h.last_eq htail ho]
  cases hreached : reached through last.1 with
  | true =>
    rw [acknowledged, if_pos hreached] at hturn
    rw [back_eq_nil_of_reached h.split (mem_of_getLast? h.last_eq) hreached]
    exact .leave hturn hstands₂
  | false =>
    rw [acknowledged, if_neg (by simp [hreached])] at hturn
    exact .again hturn (hnext (pending_trimmed h.split h.last_eq htail _) hstands₂
      (hsync.shipped hneck htail hreached head.1 hchecksum))

/-- A group that is refused is followed by its head alone; a single row that is refused ends the
push. -/
theorem Turn.refused (h : Turn sha256 space device through now choices leases start p.records
      p.ledger (p.state probe) s i head group more last s₁)
    (hsync : Synced device through p) {exit : Exit}
    (ho : specAdmit sha256 space p.ledger now
      (shipment device p.ledger (batchesOf (head :: group))) = .error exit)
    (hprobe : probe = false → Standing sha256 space leases start s₁ p.records p.ledger →
      Ends sha256 space device through choices leases start (p.state true) (s₁, i + 6)
        (shipEach sha256 space now device through (pending through p.records) p)) :
    Ends sha256 space device through choices leases start (p.state probe) (s, i)
      (shipEach sha256 space now device through (pending through p.records) p) := by
  have hstands := h.stands
  have hturn := h.answer
  rw [hsync.confirmed] at hstands hturn
  change Standing _ _ _ _ _ _ (ledgerAfter p.ledger (specAdmit sha256 space p.ledger now
    (shipment device p.ledger (batchesOf (head :: group))))) at hstands
  change ∀ result t, Prog.Eval _ (ExceptT.run (pushAnswer _ _ _ _ _ _ _ _ _ _ (answerTo
    (specAdmit sha256 space p.ledger now
      (shipment device p.ledger (batchesOf (head :: group))))))) _ _ _ → _ at hturn
  rw [ho] at hstands hturn
  have hrefused : ∀ run, Prog.Eval (Alone sha256 choices)
      (pushStep sha256 device space through (p.state probe)).run (s, i)
      (.ok (if head.1 < last.1 then .inl (p.state true) else .inr run)) (s₁, i + 6) →
      (group = [] → p.refused head.1 exit = .ok run) →
      Ends sha256 space device through choices leases start (p.state probe) (s, i)
        (shipEach sha256 space now device through (pending through p.records) p) := by
    intro run hrun hsame
    by_cases hgroup : group = []
    · have hnot : ¬ head.1 < last.1 := mt (h.chain.lt_last h.last_eq).mp (not_not.mpr hgroup)
      rw [if_neg hnot] at hrun
      rw [hgroup] at ho
      rw [h.split, cons_append, shipEach_refused ho, hsame hgroup]
      exact .leave hrun hstands
    · have hfalse : probe = false := Bool.eq_false_iff.mpr fun htrue => hgroup (h.probe htrue)
      rw [if_pos ((h.chain.lt_last h.last_eq).mpr hgroup)] at hrun
      exact .again hrun (hprobe hfalse hstands)
  cases exit with
  | response response =>
    obtain ⟨-, failures, -, hresponse⟩ := specAdmit_response ho
    have hcount : response.results.length = (head :: group).length := by
      rw [hresponse, failedResponse, length_replicate]
      exact length_map _
    have hfirst : firstFailure response.results = some (0, .rangeAssertFailed failures) := by
      rw [hresponse]
      exact firstFailure_failed group.length _
    refine hrefused (PushRun.stalled (U64.ofNat (head.1.val + 0)) (.rangeAssertFailed failures)
      p.acked p.targetAdmission) (hturn _ _ ?_) fun _ => by rw [Progress.refused, hfirst]
    change Prog.Eval _ (pushResponse _ _ _ _ _ _ _).run _ _ _
    rw [pushResponse_failed hcount hfirst]
    exact .done _ _
  | failure failure =>
    cases failure with
    | panic message =>
      have hbroken : (shipEach sha256 space now device through (pending through p.records) p).1 =
          .error .unavailable := by
        rw [h.split]
        exact shipEach_panicked h.chain ho more
      refine ⟨(s₁, i + 6), ?_, fun hne => absurd hbroken hne⟩
      rw [hbroken]
      exact eval_iterate_fail (hturn _ _ (.done _ _))
    | kernel error =>
      cases habout : aboutHistory error with
      | true =>
        have hpast := specAdmit_history (consecutive_batchesOf h.chain) ho habout
        rw [show specAdmit sha256 space p.ledger now (shipment device p.ledger
          (batchesOf (head :: group))) = _ from specAdmit_of_le hpast] at ho
        cases ho
        rw [h.split, cons_append, shipEach_forked hpast]
        exact .fail (hturn _ _ (.done _ _)) fun _ => hstands
      | false =>
        refine hrefused (PushRun.stalled head.1 error p.acked p.targetAdmission)
          (hturn _ _ ?_) fun _ => ?_
        · rw [answerTo, pushAnswer_refused habout]
          exact .done _ _
        · cases error with
          | deviceSeqRegression current attempted => cases habout
          | _ => rfl

end Group

/-- Once the checksum is the server's, the loop ends as shipping row by row does.  The measure
counts the pending rows twice and a turn that may still take more than one of them once. -/
theorem ends_shipEach (hlive : Steady leases now choices) (n : Nat) {p : Progress} {s : Shared}
    {i : Nat} {probe : Bool}
    (hn : 2 * (pending through p.records).length + (if probe then 0 else 1) ≤ n)
    (h : Standing sha256 space leases start s p.records p.ledger)
    (hsync : Synced device through p) :
    Ends sha256 space device through choices leases start (p.state probe) (s, i)
      (shipEach sha256 space now device through (pending through p.records) p) := by
  induction n generalizing p s i probe with
  | zero =>
    have hnil : pending through p.records = [] := length_eq_zero_iff.mp (by omega)
    have hle := (hsync.windowed.pending_eq_nil_iff hsync.target).mp hnil
    rw [hnil]
    exact .leave (eval_drained h.get hsync.target hle (p.state probe)) h
  | succ n ih =>
    by_cases hle : p.records.oplogCursors.tail ≤ p.records.oplogCursors.neck
    · rw [(hsync.windowed.pending_eq_nil_iff hsync.target).mpr hle]
      exact .leave (eval_drained h.get hsync.target hle (p.state probe)) h
    obtain ⟨head, group, more, last, s₁, hturn⟩ :=
      h.turn device hlive hsync.windowed hsync.target (not_le.mp hle) (p.state probe) i
    cases ho : specAdmit sha256 space p.ledger now
        (shipment device p.ledger (batchesOf (head :: group))) with
    | ok o =>
      refine hturn.admitted hsync h.valid ho fun hmore hstands hsync' => ?_
      rw [← hmore]
      refine @ih _ _ _ false ?_ hstands hsync'
      rw [hturn.split, length_append, length_cons] at hn
      rw [hmore]
      split at hn <;> simp only [Bool.false_eq_true, if_false] <;> omega
    | error exit =>
      refine hturn.refused hsync ho fun hfalse hstands => @ih _ _ _ true ?_ hstands hsync
      rw [hfalse] at hn
      simp only [Bool.false_eq_true, if_false, if_true] at hn ⊢
      omega

end Loop

/-! ## The whole push -/

section Whole

variable {sha256 : Bytes → ByteArr 32} {space : SpaceId} {device : DeviceId}
  {through : Option DeviceSeq} {now : Timestamp} {choices : Nat → Choice} {leases : Leases}
  {start s : Shared} {i : Nat} {r : SpaceRecords} {L : Space}

/-- The rows a mismatch is reconciled with. -/
def reconciled (r : SpaceRecords) (current : DeviceSeq) : List (DeviceSeq × DeviceOp) :=
  if r.oplogCursors.neck ≤ current ∧ current < r.oplogCursors.tail then
    r.oplogRows r.oplogCursors.neck current
  else []

theorem eval_retainedRows (hrecords : s.records space = r) (current : DeviceSeq) : ∃ j,
    Prog.Eval (Alone sha256 choices) (retainedRows space r.oplogCursors current).run (s, i)
      (.ok (reconciled r current)) (s, j) := by
  rw [retainedRows, reconciled]
  split
  · refine ⟨i + 1, eval_ask_iff.mpr ⟨?_, rfl⟩⟩
    rw [execute, hrecords]
  · exact ⟨i, .done _ _⟩

/-- The rows account for what the server has and the client does not know of. -/
def Reconciles (sha256 : Bytes → ByteArr 32) (space : SpaceId) (device : DeviceId)
    (r : SpaceRecords) (L : Space) : Prop :=
  ¬ (((reconciled r (L.lastSeq device)).getLast?.any
      fun row => decide (row.1 = L.lastSeq device)) = false ∨
    rebuild sha256 device space r.confirmed (reconciled r (L.lastSeq device)) ≠ L.checksum device)

theorem Reconciles.window (h : Reconciles sha256 space device r L) :
    r.oplogCursors.neck ≤ L.lastSeq device ∧ L.lastSeq device < r.oplogCursors.tail := by
  by_contra hout
  refine h (.inl ?_)
  rw [reconciled, if_neg hout]
  rfl

/-- A turn with another checksum than the server's: a lost acknowledgement is made up for, and
anything else is a fork. -/
theorem Standing.mismatch (h : Standing sha256 space leases start s r L) (hwindow : Windowed r)
    (htarget : settledTarget through r.oplogCursors = none)
    (hlt : r.oplogCursors.neck < r.oplogCursors.tail) (hne : r.confirmed ≠ L.checksum device)
    (hlive : Steady leases now choices) (i : Nat) (st : PushState) :
    (¬ Reconciles sha256 space device r L → ∃ t, Standing sha256 space leases start t.1 r L ∧
      Prog.Eval (Alone sha256 choices) (pushStep sha256 device space through st).run (s, i)
        (.error (.fork (L.lastSeq device))) t) ∧
    (Reconciles sha256 space device r L → ∃ t,
      Standing sha256 space leases start t.1
        (r.trimmed (L.lastSeq device) (L.checksum device)) L ∧
      Prog.Eval (Alone sha256 choices) (pushStep sha256 device space through st).run (s, i)
        (.ok (acknowledged through (L.lastSeq device) st.targetAdmission)) t) := by
  obtain ⟨head, group, more, last, s₁, -, -, -, -, hstands, hturn⟩ :=
    h.turn device hlive hwindow htarget hlt st i
  have hrefused : specAdmit sha256 space L now
      ⟨device, r.confirmed, [], batchesOf (head :: group)⟩ = .error (.failure (.kernel
        (.deviceChecksumMismatch (L.lastSeq device) (L.checksum device)))) := by
    rw [specAdmit, if_pos hne]
  rw [hrefused] at hturn
  rw [hrefused, ledgerAfter] at hstands
  obtain ⟨j, hrows⟩ : ∃ j, Prog.Eval (Alone sha256 choices)
      (retainedRows space r.oplogCursors (L.lastSeq device)).run (s₁, i + 6)
      (.ok (reconciled r (L.lastSeq device))) (s₁, j) := eval_retainedRows hstands.records _
  constructor
  · intro hnot
    refine ⟨(s₁, j), hstands, hturn _ _ (eval_bind hrows ?_)⟩
    rw [if_pos (not_not.mp hnot)]
    exact .done _ _
  · intro hreconciles
    obtain ⟨hneck, htail⟩ := hreconciles.window
    obtain ⟨hexec, hstands₂⟩ := hstands.acknowledge (choices j) hneck htail (L.checksum device)
    refine ⟨(_, j + 1), hstands₂, hturn _ _ (eval_bind hrows ?_)⟩
    rw [if_neg hreconciles]
    exact eval_next hexec (.done _ _)

/-- The ledger has room for the rows: neither its log nor the number of visible keys passes
`u64::MAX`. -/
structure Room (L : Space) (rows : List (DeviceSeq × DeviceOp)) : Prop where
  log : L.log.length + rows.length + 1 < 2 ^ 64
  keys : countUnder (replay (events L.log)) .full +
    (rows.map fun row => row.2.entries.length).sum < 2 ^ 64

theorem Room.available {p : Progress} (h : Room p.ledger (pending through p.records))
    (hV : p.ledger.Valid sha256 space) :
    (shipEach sha256 space now device through (pending through p.records) p).1 ≠
      .error .unavailable :=
  shipEach_available hV.logged h.log h.keys

theorem Room.back {front back : List (DeviceSeq × DeviceOp)} (h : Room L (front ++ back)) :
    Room L back where
  log := by
    have := h.log
    rw [length_append] at this
    omega
  keys := by
    have := h.keys
    rw [map_append, sum_append] at this
    omega

/-- What is pending behind a reconciled row. -/
theorem pending_reconciled (hwindow : Windowed r) {seq : DeviceSeq}
    (hneck : r.oplogCursors.neck ≤ seq) (hlt : seq < r.oplogCursors.tail)
    (hbehind : reached through seq = false) (checksum : DeviceChecksum) :
    ∃ front, pending through r = front ++ pending through (r.trimmed seq checksum) := by
  obtain ⟨op, hop⟩ := hwindow.dense seq hneck hlt
  have hend : seq ≤ streamEnd through r.oplogCursors := by
    have hlast : seq ≤ U64.saturatingSub r.oplogCursors.tail 1 := by
      rw [Fin.le_def, U64.val_saturatingSub]
      change seq.val ≤ r.oplogCursors.tail.val - 1
      have := Fin.lt_def.mp hlt
      omega
    cases through with
    | none => exact hlast
    | some target =>
      have hgt : seq < target := by simpa [reached] using hbehind
      exact le_min hgt.le hlast
  have hmem : (seq, op) ∈ pending through r :=
    mem_oplogRows.mpr ⟨OrdMap.mem_entries_iff.mpr hop, hneck, hend⟩
  obtain ⟨front, back, hsplit⟩ := append_of_mem hmem
  have hsplit : pending through r = (front ++ [(seq, op)]) ++ back := by
    rw [hsplit, append_assoc, singleton_append]
  refine ⟨front ++ [(seq, op)], ?_⟩
  rw [pending_trimmed hsplit getLast?_concat hlt checksum, hsplit]

/-- How a push ends that has a target inside its window, or none: the outcome does not depend on
the surroundings. -/
theorem ends_push (h : Standing sha256 space leases s s r L) (hwindow : Windowed r)
    (htarget : settledTarget through r.oplogCursors = none) : ∃ outcome,
    (∀ choices, Steady leases now choices →
      Ends sha256 space device through choices leases s ⟨none, none, false⟩ (s, 0) outcome) ∧
    (Room L (pending through r) → outcome.1 ≠ .error .unavailable) := by
  by_cases hle : r.oplogCursors.tail ≤ r.oplogCursors.neck
  · exact ⟨(.ok (PushRun.drained none none), ⟨r, L, none, none⟩),
      fun choices _ => .leave (eval_drained h.get htarget hle _) h, fun _ => nofun⟩
  by_cases hsame : r.confirmed = L.checksum device
  · have hsync : Synced device through ⟨r, L, none, none⟩ := ⟨hwindow, hsame, htarget⟩
    exact ⟨shipEach sha256 space now device through _ ⟨r, L, none, none⟩,
      fun choices hlive => ends_shipEach hlive _ (le_refl _) h hsync,
      fun hroom => Room.available hroom h.valid⟩
  have hlt := not_le.mp hle
  by_cases hreconciles : Reconciles sha256 space device r L
  swap
  · refine ⟨(.error (.fork (L.lastSeq device)), ⟨r, L, none, none⟩), fun choices hlive => ?_,
      fun _ => nofun⟩
    obtain ⟨t, hstands, hturn⟩ :=
      (h.mismatch hwindow htarget hlt hsame hlive 0 ⟨none, none, false⟩).1 hreconciles
    exact .fail hturn fun _ => hstands
  have hturn := fun choices (hlive : Steady leases now choices) =>
    (h.mismatch hwindow htarget hlt hsame hlive 0 ⟨none, none, false⟩).2 hreconciles
  obtain ⟨hneck, htail⟩ := hreconciles.window
  cases hreached : reached through (L.lastSeq device) with
  | true =>
    refine ⟨(.ok (PushRun.drained (some (L.lastSeq device)) none),
      ⟨r.trimmed (L.lastSeq device) (L.checksum device), L, some (L.lastSeq device), none⟩),
      fun choices hlive => ?_, fun _ => nofun⟩
    obtain ⟨t, hstands, hturn⟩ := hturn choices hlive
    rw [acknowledged, if_pos hreached] at hturn
    exact .leave hturn hstands
  | false =>
    have hsync : Synced device through ⟨r.trimmed (L.lastSeq device) (L.checksum device), L,
        some (L.lastSeq device), none⟩ :=
      ⟨hwindow.trimmed hneck htail _, rfl, settledTarget_trimmed htarget hneck htail hreached _⟩
    refine ⟨shipEach sha256 space now device through _ ⟨r.trimmed (L.lastSeq device)
      (L.checksum device), L, some (L.lastSeq device), none⟩, fun choices hlive => ?_,
      fun hroom => Room.available ?_ h.valid⟩
    · obtain ⟨t, hstands, hturn⟩ := hturn choices hlive
      rw [acknowledged, if_neg (by simp [hreached])] at hturn
      exact .again hturn (ends_shipEach hlive _ (le_refl _) hstands hsync)
    · obtain ⟨front, hfront⟩ :=
        pending_reconciled hwindow hneck htail hreached (L.checksum device)
      exact (hfront ▸ hroom).back

/-- Where the same leases are listed as live, the same leases of the table are. -/
theorem Still.steady {cap : U64} (h : Still sha256 space s now cap choices)
    (hD : Denotes sha256 space (run sha256 space (s.verbs space)).store L)
    (hV : L.Valid sha256 space) : Steady L.leases now choices := by
  intro i
  obtain ⟨time, hfate, hsame⟩ := h.answered i
  refine ⟨time, hfate, fun id record hid => ?_⟩
  obtain ⟨live, hlive, hmem⟩ := allLive_spec hD hV.keyed time
  obtain ⟨live', hlive', hmem'⟩ := allLive_spec hD hV.keyed now
  rw [hlive, hlive'] at hsame
  cases hsame
  rw [Bool.eq_iff_iff]
  constructor
  · exact fun h => ((hmem' record).mp ((hmem record).mpr ⟨⟨id, hid⟩, h⟩)).2
  · exact fun h => ((hmem record).mp ((hmem' record).mpr ⟨⟨id, hid⟩, h⟩)).2

/-- A push that the cursors alone settle, or that finds no records, changes nothing. -/
theorem eval_settled (st : PushState) (settled : Except Fault PushRun)
    (h : (s.store.spaces.get space = none ∧ targetMissing through = settled) ∨
      ∃ r, s.store.spaces.get space = some r ∧
        settledTarget through r.oplogCursors = some settled) :
    Prog.Eval (Alone sha256 choices)
      (Act.iterate (pushStep sha256 device space through) st).run (s, i) settled (s, i + 1) := by
  have hturn : Prog.Eval (Alone sha256 choices) (pushStep sha256 device space through st).run (s, i)
      (settled.map .inr) (s, i + 1) := by
    refine eval_next (show execute sha256 (choices i) .load s = (.ok s.store.load, s) from rfl) ?_
    rcases h with ⟨hget, rfl⟩ | ⟨r, hget, hsettled⟩
    · have hload : s.store.load.spaces.get space = none := by
        rw [MetaStore.load, OrdMap.get_mapValues, hget]
        rfl
      simp only [hload]
      cases targetMissing through <;> exact .done _ _
    · simp only [load_get r hget]
      rw [show settledTarget through r.load.cursors = some settled from hsettled]
      cases settled <;> exact .done _ _
  cases settled with
  | ok run => exact eval_iterate_leave hturn
  | error fault => exact eval_iterate_fail hturn

end Whole

/-- Push grouping and probing are unobservable.  For every dense window, every push cap, every
target and every state of the server, a push that the server answers while nobody else changes it
terminates, with one outcome; with every cap it returns what it returns with cap one, and leaves
behind the same records of the client and the same state of the server, unless the server breaks
down.  It does so only if a counter would pass `u64::MAX`. -/
theorem push_cap_unobservable (sha256 : Bytes → ByteArr 32) (space : SpaceId) (device : DeviceId)
    (through : Option DeviceSeq) (s : Shared) (hwindow : Windowed (s.records space))
    (now : Timestamp) (cap : U64) (capped single : Nat → Choice)
    (hcapped : Still sha256 space s now cap capped) (hsingle : Still sha256 space s now 1 single) :
    let server := run sha256 space (s.verbs space)
    let rows := pending through (s.records space)
    let push := (pushSpace sha256 device space through).run
    ∃ result t t',
      (∀ a u, Prog.Eval (Alone sha256 capped) push (s, 0) a u ↔ a = result ∧ u = t) ∧
      (∀ a u, Prog.Eval (Alone sha256 single) push (s, 0) a u ↔ a = result ∧ u = t') ∧
      (result ≠ .error .unavailable → t.1.store = t'.1.store ∧
        run sha256 space (t.1.verbs space) = run sha256 space (t'.1.verbs space)) ∧
      ((log sha256 space (s.verbs space)).length + rows.length + 1 < 2 ^ 64 →
        server.store.entries.length + (rows.map fun row => row.2.entries.length).sum < 2 ^ 64 →
        result ≠ .error .unavailable) := by
  intro server rows push
  obtain ⟨L, hD, hV, hlog⟩ := run_refines sha256 space (s.verbs space)
  cases hget : s.store.spaces.get space with
  | none =>
    refine ⟨_, _, _, eval_iff_of_alone (eval_settled _ _ (.inl ⟨hget, rfl⟩)),
      eval_iff_of_alone (eval_settled _ _ (.inl ⟨hget, rfl⟩)), fun _ => ⟨rfl, rfl⟩, fun _ _ => ?_⟩
    intro hmissing
    cases through <;> cases hmissing
  | some r =>
    have hrecords : s.records space = r := by rw [Shared.records, MetaStore.records, hget]; rfl
    rw [hrecords] at hwindow
    cases htarget : settledTarget through r.oplogCursors with
    | some settled =>
      refine ⟨_, _, _, eval_iff_of_alone (eval_settled _ _ (.inr ⟨r, hget, htarget⟩)),
        eval_iff_of_alone (eval_settled _ _ (.inr ⟨r, hget, htarget⟩)), fun _ => ⟨rfl, rfl⟩,
        fun _ _ => ?_⟩
      rintro rfl
      cases through with
      | none => cases htarget
      | some target =>
        simp only [settledTarget] at htarget
        split at htarget
        · cases htarget
        · split at htarget <;> cases htarget
    | none =>
      have hstands : Standing sha256 space L.leases s s r L :=
        ⟨by rw [MetaStore.setRecords, OrdMap.insert_of_get hget], hD, rfl, hV, rfl⟩
      obtain ⟨outcome, hends, hroom⟩ := ends_push hstands hwindow htarget
      obtain ⟨t, heval, hstands⟩ := hends capped (hcapped.steady hD hV)
      obtain ⟨t', heval', hstands'⟩ := hends single (hsingle.steady hD hV)
      refine ⟨outcome.1, t, t', eval_iff_of_alone heval, eval_iff_of_alone heval',
        fun hne => (hstands hne).unique (hstands' hne), fun hlength hkeys => hroom ⟨?_, ?_⟩⟩
      · rw [hlog, ← hrecords]
        exact hlength
      · have hle := countUnder_le_rows hD.materialized hV.logged.chronicle .full
        rw [← hrecords]
        exact lt_of_le_of_lt (Nat.add_le_add_right hle _) hkeys

/-! A client with three submissions: one with more entries than the cap of two, then two that are
shipped as a group and refused, since the second of them asserts a key that another device has
deleted. -/

/-- A deletion by the client. -/
def stallingDelete (seq : DeviceSeq) (ver : Ver) : SealedEntry :=
  ⟨.delete (Key.ofByte 2), ⟨sampleHolder, seq, ver, 0⟩, ⟨.aeadV1, .zero 24, .zero 16, []⟩⟩

def stallingCalls : List OplogCall :=
  [.commit ⟨1, 3, [1, 2, 3], [], .checked⟩
      [stallingDelete 1 1, stallingDelete 1 2, stallingDelete 1 3],
    .commit ⟨2, 4, [4], [], .checked⟩ [stallingDelete 2 4],
    .commit ⟨3, 4, [], [⟨sampleKey, 0⟩], .checked⟩ []]

def stalling : Shared :=
  { Shared.initial with
    store := MetaStore.empty.setRecords (.zero 16) (SpaceRecords.empty.afterCalls stallingCalls)
    verbs := fun _ => [.admitRequest 3 (sampleDelete sampleWriter sampleKey)] }

/-- Surroundings that do not change. -/
def calm (cap : U64) : Nat → Choice := fun _ => ⟨HybridTimestamp.zero, none, cap, .answered 5⟩

theorem push_cap_unobservable_stalling :
    let push := (pushSpace (fun _ => .zero 32) sampleHolder (.zero 16) none).run
    let stalled := .ok (PushRun.stalled 3 (.rangeAssertFailed [⟨sampleKey, 0, 1⟩]) (some 2) none)
    ((pending none (stalling.records (.zero 16))).map fun row => row.2.entries.length) =
        [3, 1, 0] ∧
      ∃ t t',
        (∀ a u, Prog.Eval (Alone (fun _ => .zero 32) (calm 2)) push (stalling, 0) a u ↔
          a = stalled ∧ u = t) ∧
        (∀ a u, Prog.Eval (Alone (fun _ => .zero 32) (calm 1)) push (stalling, 0) a u ↔
          a = stalled ∧ u = t') ∧
        t.1.store = t'.1.store ∧
        run (fun _ => .zero 32) (.zero 16) (t.1.verbs (.zero 16)) =
          run (fun _ => .zero 32) (.zero 16) (t'.1.verbs (.zero 16)) := by
  intro push stalled
  have hrecords : stalling.records (.zero 16) = SpaceRecords.empty.afterCalls stallingCalls :=
    MetaStore.records_setRecords_self _ _ _
  have hwindow : Windowed (stalling.records (.zero 16)) := by
    rw [hrecords, stallingCalls, SpaceRecords.afterCalls_cons, SpaceRecords.afterCalls_cons,
      SpaceRecords.afterCalls_cons, SpaceRecords.afterCalls_nil]
    exact ((Windowed.empty.step (.afterCall _ _)).step (.afterCall _ _)).step (.afterCall _ _)
  have hrows : ((pending none (stalling.records (.zero 16))).map
      fun row => row.2.entries.length) = [3, 1, 0] := by
    rw [hrecords]
    decide +kernel
  have hstill : ∀ cap, Still (fun _ => .zero 32) (.zero 16) stalling 5 cap (calm cap) :=
    fun cap => ⟨fun _ => rfl, fun _ => ⟨5, rfl, rfl⟩⟩
  obtain ⟨result, t, t', hcapped, hsingle, hsame, -⟩ := push_cap_unobservable
    (fun _ => .zero 32) (.zero 16) sampleHolder none stalling hwindow 5 2 (calm 2) (calm 1)
    (hstill 2) (hstill 1)
  have houtcome : (push.outcome (alone (fun _ => .zero 32) (calm 2)) 40 (stalling, 0)).map
      Prod.fst = some stalled := by decide +kernel
  obtain ⟨outcome, hrun, hstalled⟩ := Option.map_eq_some_iff.mp houtcome
  obtain ⟨hresult, -⟩ := (hcapped _ _).mp (Prog.eval_of_outcome (alone_spec _ _) hrun)
  obtain rfl : result = stalled := hresult.symm.trans hstalled
  obtain ⟨hstore, hserver⟩ := hsame nofun
  exact ⟨hrows, t, t', hcapped, hsingle, hstore, hserver⟩

end Homebase.Properties
