import Homebase.Refine.Log

set_option autoImplicit false

/-!
# Properties: keys and the records they name

The flat form of a tuple keeps order and prefixes, and decoding accepts nothing but flat forms.  So
the records of all spaces lie apart in one keyspace, and a scan of a component-aligned byte prefix
meets the records it is meant for and no others.
-/

namespace Homebase.Properties

open Foundation Homebase.Core Server List

/-! ## Tuples -/

theorem encodeComponents_le_iff {cs ds : List KeyComponent} :
    encodeComponents cs ≤ encodeComponents ds ↔ cs ≤ ds := by
  rw [← not_lt, encodeComponents_lt_iff, not_lt]

/-- Tuples are read back, only their flat forms are read, and the flat form keeps the order of
tuples and their prefixes; a key is read from a byte string exactly if it is written so. -/
theorem tuple_encoding :
    (∀ a : List KeyComponent, decodeComponents (encodeComponents a) = .ok a) ∧
      (∀ (bytes : Bytes) (a : List KeyComponent),
        decodeComponents bytes = .ok a ↔ encodeComponents a = bytes) ∧
      (∀ a b : List KeyComponent, encodeComponents a ≤ encodeComponents b ↔ a ≤ b) ∧
      (∀ a b : List KeyComponent, encodeComponents a <+: encodeComponents b ↔ a <+: b) ∧
      ∀ (bytes : Bytes) (key : Key), Key.decode bytes = .ok key ↔ key.encode = bytes :=
  ⟨decodeComponents_encodeComponents, fun _ _ => decodeComponents_eq_ok_iff,
    fun _ _ => encodeComponents_le_iff, fun _ _ => encodeComponents_isPrefix_iff,
    fun _ _ => Key.decode_eq_ok_iff⟩

/-! ## Records -/

/-- The key of a record, as the builders of the schema make it. -/
def builtKey (space : SpaceId) : StorageKey → Bytes
  | .data key => dataKey space key
  | .rangeDelete range => rangeDeleteKey space range
  | .leaseByPrefix leasePrefix id => leaseByPrefixKey space leasePrefix id
  | .leaseById id => leaseByIdKey space id
  | .counters => countersKey space
  | .aggregate .full => rootMetaKey space
  | .aggregate (.prefixed head) => prefixMetaKey space head
  | .device device => deviceKey space device
  | .header seq => admissionHeaderKey space seq
  | .op seq opIndex (.point key) => admissionOpKey space seq opIndex key
  | .op seq opIndex (.range range) => admissionRangeOpKey space seq opIndex range

theorem builtKey_eq_encode (space : SpaceId) (key : StorageKey) :
    builtKey space key = key.encode space := by
  rcases key with _ | _ | _ | _ | _ | (_ | _) | _ | _ | ⟨_, _, _ | _⟩ <;> rfl

theorem spaceComponent_inj {a b : SpaceId} : spaceComponent a = spaceComponent b ↔ a = b :=
  ⟨fun h => ByteArr.ext (congrArg KeyComponent.bytes h), fun h => h ▸ rfl⟩

variable {kind : RecordKind} {head : List KeyComponent}

/-- A component-aligned byte prefix selects the records of one space and one kind whose components
extend it. -/
theorem isPrefix_builtKey_iff {space owner : SpaceId} {key : StorageKey} :
    encodeComponents (kindHead space kind ++ head) <+: builtKey owner key ↔
      owner = space ∧ key.kind = kind ∧ head <+: key.tail := by
  rw [builtKey_eq_encode]
  constructor
  · intro h
    have hhead := encodeComponents_isPrefix_iff.mp h
    simp only [kindHead, cons_append, cons_prefix_cons, spaceComponent_inj] at hhead
    obtain ⟨rfl, -⟩ := hhead
    exact ⟨rfl, (StorageKey.isPrefix_encode_iff space kind head key).mp h⟩
  · rintro ⟨rfl, h⟩
    exact (StorageKey.isPrefix_encode_iff owner kind head key).mpr h

theorem builtKey_injective {space space' : SpaceId} {a b : StorageKey}
    (h : builtKey space a = builtKey space' b) : space = space' ∧ a = b := by
  have hprefix : encodeComponents (kindHead space a.kind ++ a.tail) <+: builtKey space' b := by
    rw [← h, builtKey_eq_encode]
    exact prefix_refl _
  obtain ⟨rfl, -⟩ := isPrefix_builtKey_iff.mp hprefix
  rw [builtKey_eq_encode, builtKey_eq_encode] at h
  exact ⟨rfl, StorageKey.encode_injective space' h⟩

/-! ## Scans -/

/-- Every key of the store is the key of a record of some space. -/
def Built (store : Store) : Prop :=
  ∀ b v, store.get b = some v → ∃ space key, b = builtKey space key

/-- The scan of a byte prefix returns the meant records of the store, in the order of their keys. -/
def Yields (store : Store) (base : Bytes) (meant : SpaceId → StorageKey → Prop) : Prop :=
  ∃ rows, store.scanPrefix base = some rows ∧ (rows.Pairwise fun a b => a.1 < b.1) ∧
    ∀ b v, (b, v) ∈ rows ↔
      store.get b = some v ∧ ∃ space key, b = builtKey space key ∧ meant space key

theorem yields_of_built {store : Store} (hstore : Built store) {space : SpaceId}
    {meant : StorageKey → Prop} (hmeant : ∀ key, key.kind = kind ∧ head <+: key.tail ↔ meant key) :
    Yields store (encodeComponents (kindHead space kind ++ head))
      fun owner key => owner = space ∧ meant key := by
  have hscan := Store.scanPrefix_eq_some store (encodeComponents (kindHead space kind ++ head))
  refine ⟨_, hscan, Store.scanPrefix_sorted hscan, fun b v => ?_⟩
  rw [Store.mem_scanPrefix_iff hscan]
  constructor
  · rintro ⟨hget, hprefix⟩
    obtain ⟨owner, key, rfl⟩ := hstore b v hget
    obtain ⟨rfl, hselected⟩ := isPrefix_builtKey_iff.mp hprefix
    exact ⟨hget, owner, key, rfl, rfl, (hmeant key).mp hselected⟩
  · rintro ⟨hget, owner, key, rfl, rfl, hkey⟩
    exact ⟨hget, isPrefix_builtKey_iff.mpr ⟨rfl, (hmeant key).mpr hkey⟩⟩

section Selected

variable {key : StorageKey} {head : List KeyComponent}

theorem data_selected_iff :
    key.kind = .data ∧ head <+: key.tail ↔
      ∃ userKey, key = .data userKey ∧ head <+: userKey.components := by
  constructor
  · rintro ⟨hkind, hhead⟩
    obtain ⟨userKey, rfl⟩ := Refine.kind_eq_data_iff.mp hkind
    exact ⟨userKey, rfl, hhead⟩
  · rintro ⟨userKey, rfl, hhead⟩
    exact ⟨rfl, hhead⟩

theorem op_selected_iff {seq : AdmissionSeq} :
    key.kind = .admissionLog ∧ [u64Component seq, byteComponent 1] <+: key.tail ↔
      ∃ opIndex target, key = .op seq opIndex target := by
  constructor
  · rintro ⟨hkind, hhead⟩
    rcases key with _ | _ | _ | _ | _ | (_ | _) | _ | other | ⟨other, opIndex, target⟩ <;>
      try (exact RecordKind.noConfusion hkind)
    · simp [StorageKey.tail, cons_prefix_cons] at hhead
    · simp only [StorageKey.tail, cons_append, cons_prefix_cons, u64Component_inj] at hhead
      exact ⟨opIndex, target, by rw [hhead.1]⟩
  · rintro ⟨opIndex, target, rfl⟩
    exact ⟨rfl, prefix_append _ _⟩

theorem leaseById_selected_iff :
    key.kind = .leaseById ∧ [] <+: key.tail ↔ ∃ id, key = .leaseById id := by
  constructor
  · rintro ⟨hkind, -⟩
    rcases key with _ | _ | _ | id | _ | (_ | _) | _ | _ | _ <;>
      first | exact ⟨id, rfl⟩ | exact RecordKind.noConfusion hkind
  · rintro ⟨id, rfl⟩
    exact ⟨rfl, nil_prefix⟩

theorem leaseByPrefix_selected_iff {depth : Nat} (hhead : head.length ≤ depth)
    (hdepth : depth ≤ maxComponents) :
    key.kind = .leaseByPrefix ∧ depthComponent depth :: head <+: key.tail ↔
      ∃ leasePrefix id, key = .leaseByPrefix leasePrefix id ∧
        leasePrefix.components.length = depth ∧ head <+: leasePrefix.components := by
  constructor
  · rintro ⟨hkind, hprefix⟩
    rcases key with _ | _ | ⟨leasePrefix, id⟩ | _ | _ | (_ | _) | _ | _ | _ <;>
      try (exact RecordKind.noConfusion hkind)
    exact ⟨leasePrefix, id, rfl, (Refine.scanHead_isPrefix_iff hdepth hhead _ _).mp hprefix⟩
  · rintro ⟨leasePrefix, id, rfl, h⟩
    exact ⟨rfl, (Refine.scanHead_isPrefix_iff hdepth hhead _ _).mpr h⟩

end Selected

theorem targetKey_eq_encode (space : SpaceId) (seq : AdmissionSeq) (opIndex : U32)
    (target : AdmissionTarget) :
    targetKey space seq opIndex target = (StorageKey.op seq opIndex target).encode space := by
  cases target <;> rfl

/-- Records of any kinds and spaces have keys of their own, the parsers undo the builders, and the
scans of the server return exactly the records they are meant for. -/
theorem schema_separates (store : Store) (hstore : Built store) :
    (∀ space space' a b, builtKey space a = builtKey space' b → space = space' ∧ a = b) ∧
    (∀ space key, userKeyFromData (dataKey space key) = some key) ∧
    (∀ space range, rangeDeleteParts (rangeDeleteKey space range) = some (space, range)) ∧
    (∀ space seq opIndex target,
      admissionOpParts (targetKey space seq opIndex target) = some (seq, opIndex, target)) ∧
    (∀ space listPrefix, Yields store (dataKey space listPrefix) fun owner key =>
      owner = space ∧ ∃ userKey, key = .data userKey ∧ userKey.startsWith listPrefix = true) ∧
    (∀ space, Yields store (dataScanAll space) fun owner key =>
      owner = space ∧ ∃ userKey, key = .data userKey) ∧
    (∀ space seq, Yields store (admissionOpScan space seq) fun owner key =>
      owner = space ∧ ∃ opIndex target, key = .op seq opIndex target) ∧
    (∀ space seq rows, store.scanPrefix (admissionOpScan space seq) = some rows →
      rows.Pairwise fun a b => ∀ i s j t, a.1 = targetKey space seq i s →
        b.1 = targetKey space seq j t → i ≤ j) ∧
    (∀ space, Yields store (leaseByIdScan space) fun owner key =>
      owner = space ∧ ∃ id, key = .leaseById id) ∧
    ∀ space depth (head : List KeyComponent), head.length ≤ depth → depth ≤ maxComponents →
      Yields store (leaseByPrefixScan space depth head) fun owner key =>
        owner = space ∧ ∃ leasePrefix id, key = .leaseByPrefix leasePrefix id ∧
          leasePrefix.components.length = depth ∧ head <+: leasePrefix.components := by
  refine ⟨fun _ _ _ _ => builtKey_injective, userKeyFromData_dataKey,
    rangeDeleteParts_rangeDeleteKey, admissionOpParts_targetKey, fun space listPrefix => ?_,
    fun space => ?_, fun space seq => ?_, fun space seq rows hrows => ?_, fun space => ?_,
    fun space depth head hhead hdepth => ?_⟩
  · refine yields_of_built hstore fun key => data_selected_iff.trans ?_
    simp only [Key.startsWith_iff]
  · have hselected : ∀ key : StorageKey, key.kind = .data ∧ [] <+: key.tail ↔
        ∃ userKey, key = .data userKey := by
      intro key
      simp only [ nil_prefix, and_true, Refine.kind_eq_data_iff]
    exact yields_of_built hstore hselected
  · exact yields_of_built hstore fun key => op_selected_iff
  · refine (Store.scanPrefix_sorted hrows).imp fun {a b} hlt i s j t ha hb => ?_
    rw [ha, hb, targetKey_eq_encode, targetKey_eq_encode] at hlt
    exact not_lt.mp fun hji => lt_asymm hlt (Refine.StorageKey.op_encode_lt hji)
  · exact yields_of_built hstore @leaseById_selected_iff
  · exact yields_of_built hstore fun key => leaseByPrefix_selected_iff hhead hdepth

/-! ## A key that looks like a lease of its prefix -/

namespace Mimicry

def space : SpaceId := ByteArr.zero 16

/-- A component of two bytes, which could be a depth. -/
def marker : KeyComponent := depthComponent 1

/-- A component of eight bytes, which could be the id of a lease. -/
def trailer : KeyComponent := u64Component 7

def short : Key := ⟨[marker], by decide, by decide, by decide⟩

def long : Key := ⟨[marker, trailer], by decide, by decide, by decide⟩

/-- A lease of the short key, one of the long key, and a data row. -/
def store : Store :=
  ((OrdMap.empty.insert (builtKey space (.leaseByPrefix short 7)) [1]).insert
    (builtKey space (.leaseByPrefix long 7)) [2]).insert (builtKey space (.data long)) [3]

theorem built : Built store := by
  intro b v h
  simp only [store, OrdMap.get_insert] at h
  split at h
  · exact ⟨_, _, by assumption⟩
  split at h
  · exact ⟨_, _, by assumption⟩
  split at h
  · exact ⟨_, _, by assumption⟩
  · cases h

end Mimicry

open Mimicry in
/-- A scan at depth one with the components of the short key meets its own lease and not the one of
the long key, whose next component is the same. -/
theorem schema_separates_mimicry :
    Yields store (leaseByPrefixScan space 1 short.components) fun owner key =>
      owner = space ∧ ∃ leasePrefix id, key = .leaseByPrefix leasePrefix id ∧
        leasePrefix.components.length = 1 ∧ short.components <+: leasePrefix.components :=
  (schema_separates store built).2.2.2.2.2.2.2.2.2 space 1 short.components (by decide) (by decide)

end Homebase.Properties
