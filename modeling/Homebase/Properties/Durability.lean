import Homebase.Refine.Log

set_option autoImplicit false

/-!
# Properties: duplicates, restarts and what is stored

What the server owes to faults around it: a request that reaches it twice takes effect once
(`request_applied_once`), a restart loses nothing but hints (`restarts_unobservable`), a lease
id that a device still holds never names another lease (`lease_ids_not_reused`), and whatever
it stored it can read (`rows_accepted`).
-/

namespace Homebase.Properties

open Foundation Homebase.Core Server Ledger Refine List

/-! ## Duplicates -/

section Requests

variable {sha256 : Bytes → ByteArr 32} {space : SpaceId}

/-- A request either changes nothing and admits nothing, or admits all its batches. -/
theorem admitted_or_unchanged {verbs : List Verb} {L : Space} (hL : Reaches sha256 space verbs L)
    (now : Timestamp) (req : AdmissionRequest) :
    (exec sha256 space (run sha256 space verbs) (.admitRequest now req) = run sha256 space verbs ∧
      admissions sha256 space (run sha256 space verbs) (.admitRequest now req) = []) ∨
    Appends req.device L.log req.batches
      (admissions sha256 space (run sha256 space verbs) (.admitRequest now req)) := by
  obtain ⟨hD, hV, -⟩ := hL
  have h := admit_spec hD hV now req
  cases hspec : specAdmit sha256 space L now req with
  | ok r =>
    obtain ⟨-, last, added, -, -, hadded, -, hL'⟩ := specAdmit_eq_ok_iff.mp hspec
    have hlog := log_of_admitted hD hV hspec
    rw [hL', Space.append, append_cancel_left_eq] at hlog
    exact Or.inr (hlog ▸ specBatches_appends hV.logged hadded)
  | error exit =>
    rw [hspec] at h
    refine Or.inl ?_
    cases exit with
    | failure failure => simp [exec, admissions, h]
    | response response =>
      obtain ⟨-, failures, -, rfl⟩ := specAdmit_response hspec
      simp [exec, admissions, h, failedResponse, applied_failed]

end Requests

/-- A request that is delivered twice, with anything in between, takes effect at most once. -/
theorem request_applied_once (sha256 : Bytes → ByteArr 32) (space : SpaceId)
    (verbs later : List Verb) (now now' : Timestamp) (req : AdmissionRequest) :
    admissions sha256 space (run sha256 space verbs) (.admitRequest now req) = [] ∨
      run sha256 space (verbs ++ .admitRequest now req :: later ++ [.admitRequest now' req]) =
        run sha256 space (verbs ++ .admitRequest now req :: later) := by
  obtain ⟨L, hL⟩ := run_refines sha256 space verbs
  rcases admitted_or_unchanged hL now req with ⟨-, hnone⟩ | hfirst
  · exact Or.inl hnone
  obtain ⟨L', hL'⟩ := run_refines sha256 space (verbs ++ .admitRequest now req :: later)
  rw [run_concat]
  rcases admitted_or_unchanged hL' now' req with ⟨hsame, -⟩ | hsecond
  · exact Or.inr hsame
  -- a batch of the first delivery would stand in the log before itself
  refine Or.inl (eq_nil_iff_forall_not_mem.mpr fun a ha => ?_)
  have hbatch : a.batch ∈ req.batches := hfirst.batches ▸ mem_map_of_mem ha
  rw [← hsecond.batches] at hbatch
  obtain ⟨a', ha', heq⟩ := mem_map.mp hbatch
  obtain ⟨L'', -, hV, hlog⟩ := run_refines sha256 space
    (verbs ++ .admitRequest now req :: later ++ [.admitRequest now' req])
  have hrise := hV.deviceSeqs req.device
  rw [hlog, log_concat, log_append, logFrom, stream, filter_append,
    pairwise_append] at hrise
  have hlt := hrise.2.2 a (mem_filter.mpr ⟨mem_append_right _ (mem_append_left _ ha),
    decide_eq_true (hfirst.own a ha)⟩) a' (mem_filter.mpr ⟨ha',
    decide_eq_true (hsecond.own a' ha')⟩)
  rw [heq] at hlt
  exact lt_irrefl _ hlt

/-! ## Restarts -/

section Restarts

variable (sha256 : Bytes → ByteArr 32) (space : SpaceId)

/-- A verb, or a restart that keeps nothing but the store. -/
def execOrRestart (state : SpaceState) : Option Verb → SpaceState
  | some verb => exec sha256 space state verb
  | none => { state with demand := ∅ }

variable {sha256 space}

/-- What a verb leaves in the store does not depend on the demand set. -/
theorem exec_store {state state' : SpaceState} {L : Space}
    (hD : Denotes sha256 space state.store L) (hV : L.Valid sha256 space)
    (h : state.store = state'.store) (verb : Verb) :
    (exec sha256 space state verb).store = (exec sha256 space state' verb).store := by
  have hD' : Denotes sha256 space state'.store L := h ▸ hD
  cases verb with
  | acquire now req =>
    simp only [exec, acquire, h]
    split
    · exact h
    · rfl
    · split
      · rfl
      · split <;> simp [h]
  | renew now req => exact (renew_spec hD hV.keyed now req).unique (renew_spec hD' hV.keyed now req)
  | release now req =>
    exact (release_spec hD hV.keyed now req).unique (release_spec hD' hV.keyed now req)
  | listLeases now req =>
    exact (listLeases_spec hD hV.keyed now req).unique (listLeases_spec hD' hV.keyed now req)
  | admitRequest now req => simp only [exec, h]
  | pull req | get req | list req | readAt req => exact h

end Restarts

/-- A server that is restarted any number of times, between any two verbs, stores what one
that was never restarted stores. -/
theorem restarts_unobservable (sha256 : Bytes → ByteArr 32) (space : SpaceId)
    (events : List (Option Verb)) :
    (events.foldl (execOrRestart sha256 space) SpaceState.initial).store =
      (run sha256 space events.reduceOption).store := by
  induction events using List.reverseRecOn with
  | nil => rfl
  | append_singleton events event ih =>
    rw [foldl_append, reduceOption_append]
    cases event with
    | none => simpa [execOrRestart] using ih
    | some verb =>
      obtain ⟨L, hD, hV, -⟩ := run_refines sha256 space events.reduceOption
      rw [reduceOption_singleton, Option.toList_some, run_concat]
      exact exec_store (ih ▸ hD) hV ih verb

/-! ## Lease ids -/

/-- An id is given to one lease: once it is stored, what it names is gone for good or as it was. -/
theorem lease_ids_not_reused (sha256 : Bytes → ByteArr 32) (space : SpaceId)
    (verbs later more : List Verb) (id : LeaseId) :
    let lease verbs := (leaseById space (run sha256 space verbs).store id).map grantOf
    lease verbs = .ok none ∨ lease (verbs ++ later ++ more) = .ok none ∨
      lease (verbs ++ later ++ more) = lease (verbs ++ later) := by
  obtain ⟨L, hL⟩ := run_refines sha256 space verbs
  dsimp only
  rw [leaseById_spec hL.denotes hL.valid.keyed]
  cases hid : L.leases id with
  | none => exact Or.inl rfl
  | some record =>
    obtain ⟨L₁, hL₁, hlt, -⟩ := run_keeps hL (hL.valid.below id record hid) later
    obtain ⟨L₂, hL₂, -, hkeeps⟩ := run_keeps hL₁ hlt more
    rw [leaseById_spec hL₁.denotes hL₁.valid.keyed, leaseById_spec hL₂.denotes hL₂.valid.keyed]
    exact Or.inr (hkeeps.imp (congrArg Except.ok) (congrArg Except.ok))

/-! ## Records -/

/-- The decoder of the kind of a record accepts the value. -/
def accepts : StorageKey → Bytes → Bool
  | .data key, value | .op _ _ (.point key), value => (DataRecord.decode key value).isSome
  | .rangeDelete range, value | .op _ _ (.range range), value =>
      (RangeDeleteRecord.decode range value).isSome
  | .aggregate _, value => (PrefixMetaRecord.decode value).isSome
  | .leaseByPrefix _ _, value | .leaseById _, value => (LeaseRecord.decode value).isSome
  | .counters, value => (CountersRecord.decode value).isSome
  | .device _, value => (DeviceRecord.decode value).isSome
  | .header _, value => (AdmissionHeaderRecord.decode value).isSome

/-- In every reachable state every row has the key of a record, and the decoder of that
record accepts its value. -/
theorem rows_accepted (sha256 : Bytes → ByteArr 32) (space : SpaceId) (verbs : List Verb) :
    {row | ((run sha256 space verbs).store.get row).isSome} ⊆
        Set.range (StorageKey.encode space) ∧
      ∀ key, (((run sha256 space verbs).store.get (StorageKey.encode space key)).all
        (accepts key)) = true := by
  obtain ⟨L, hD, hV, -⟩ := run_refines sha256 space verbs
  have hc := hV.logged.chronicle
  refine ⟨fun row hrow => ?_, fun key => ?_⟩
  · obtain ⟨value, hvalue⟩ := Option.isSome_iff_exists.mp hrow
    exact hD.known row value hvalue
  rw [hD.get, Option.all_eq_true]
  intro value hrow
  cases key with
  | data key =>
    obtain ⟨e, he, rfl⟩ := Option.map_eq_some_iff.mp hrow
    have hpoint := isDeleteRange_of_pointKey (mem_of_lastPoint he).2
    rw [accepts, decode_pointBytes hc he hpoint]
    rfl
  | rangeDelete range =>
    obtain ⟨record, hrecord, rfl⟩ := Option.map_eq_some_iff.mp hrow
    rw [accepts, rangeDelete_decode hc hrecord]
    rfl
  | aggregate range =>
    obtain ⟨record, hrecord, rfl⟩ := Option.map_eq_some_iff.mp hrow
    have hvalid := (metaSummary (events L.log) range).valid
    rw [metaRecord, hrecord, Option.getD_some] at hvalid
    rw [accepts, PrefixMetaRecord.decode_encode hvalid]
    rfl
  | leaseByPrefix p id | leaseById id | counters | device device | header seq =>
    obtain ⟨record, -, rfl⟩ := Option.map_eq_some_iff.mp hrow
    simp [accepts]
  | op seq opIndex target =>
    obtain ⟨e, he, rfl⟩ := Option.map_eq_some_iff.mp hrow
    obtain ⟨hmem, hop⟩ := mem_of_latest he
    rw [← (StorageKey.op.inj (of_decide_eq_true hop)).2.2, opTarget]
    cases hm : e.mutation with
    | set key value | delete key =>
      obtain ⟨record, hrecord, -⟩ := decode_opBytes_point (by rw [hm]; rfl) (hc.sealed e hmem)
      rw [accepts, hrecord]
      rfl
    | deleteRange range =>
      obtain ⟨record, hrecord, -⟩ := decode_opBytes_range hc hmem hm
      rw [accepts, hrecord]
      rfl

end Homebase.Properties
