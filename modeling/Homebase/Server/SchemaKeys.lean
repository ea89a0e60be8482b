import Homebase.Core.Messages
import Homebase.Core.Storage

set_option autoImplicit false

/-!
# Server: the shard keyspace (`server/src/schema.rs`, keys)

Every storage key is a tuple of components in the order-preserving encoding of
`Core.Key`.  The builders and parsers below are those of the source; the type
`StorageKey` then names every key a space can write, once, so that one
injectivity theorem (`StorageKey.encode_injective`) says that no two records of a
space share a storage key.

The `expect`s of the source on components it has just built of known lengths are
discharged by construction: a component carries the proof that it is one.
-/

namespace Homebase.Server

open Foundation Homebase.Core List

/-! ## Components -/

/-- `RecordKind`; `spaceMeta` is the source's `Meta`, a reserved word here. -/
inductive RecordKind where
  | data
  | rangeDelete
  | leaseByPrefix
  | leaseById
  | spaceMeta
  | device
  | prefixMeta
  | admissionLog
  deriving DecidableEq

/-- `self as u8`. -/
def RecordKind.toU8 : RecordKind → U8
  | data => 0
  | rangeDelete => 1
  | leaseByPrefix => 2
  | leaseById => 3
  | spaceMeta => 4
  | device => 5
  | prefixMeta => 6
  | admissionLog => 7

theorem RecordKind.toU8_injective : Function.Injective RecordKind.toU8 := by
  intro a b h
  cases a <;> cases b <;> first | rfl | exact absurd h (by decide)

/-- A one-byte component: `RecordKind::component` and `admission_component`. -/
def byteComponent (b : U8) : KeyComponent := ⟨[b], by simp, by simp [maxComponentLen]⟩

/-- `RecordKind::component`. -/
def RecordKind.component (kind : RecordKind) : KeyComponent := byteComponent kind.toU8

/-- A component of a fixed length between one and the limit. -/
def arrayComponent {n : Nat} (a : ByteArr n) (hn : n ≠ 0 ∧ n ≤ maxComponentLen) : KeyComponent :=
  ⟨a.bytes, fun h => hn.1 (a.length_eq.symm.trans (by rw [h]; rfl)), a.length_eq.trans_le hn.2⟩

/-- `space_component`. -/
def spaceComponent (space : SpaceId) : KeyComponent :=
  arrayComponent space (by simp [maxComponentLen])

/-- A big-endian word of `w` bytes. -/
def wordComponent (w n : Nat) (hw : w ≠ 0 ∧ w ≤ maxComponentLen) : KeyComponent :=
  arrayComponent ⟨toBE w n, length_toBE w n⟩ hw

/-- `u64_component`. -/
def u64Component (v : U64) : KeyComponent := wordComponent 8 v.val (by simp [maxComponentLen])

/-- `u32_component`. -/
def u32Component (v : U32) : KeyComponent := wordComponent 4 v.val (by simp [maxComponentLen])

/-- `depth_component`.  Its callers pass the depth of a key or a scan depth up to
`MAX_COMPONENTS`, so its assertion and its conversion to `u16` hold. -/
def depthComponent (depth : Nat) : KeyComponent :=
  wordComponent 2 depth (by simp [maxComponentLen])

/-- A literal component, such as `b"root"`. -/
def rootComponent : KeyComponent := ⟨ascii "root", by decide, by decide⟩

/-- The component `b"counters"`. -/
def countersComponent : KeyComponent := ⟨ascii "counters", by decide, by decide⟩

/-- The device of a Device record. -/
def deviceComponent (device : DeviceId) : KeyComponent :=
  arrayComponent device (by simp [maxComponentLen])

@[simp] theorem byteComponent_inj {a b : U8} : byteComponent a = byteComponent b ↔ a = b :=
  ⟨fun h => head_eq_of_cons_eq (congrArg KeyComponent.bytes h), fun h => h ▸ rfl⟩

@[simp] theorem kind_component_inj {a b : RecordKind} : a.component = b.component ↔ a = b := by
  simp [RecordKind.component, RecordKind.toU8_injective.eq_iff]

theorem wordComponent_inj {w n m : Nat} (hw : w ≠ 0 ∧ w ≤ maxComponentLen)
    (hn : n < 256 ^ w) (hm : m < 256 ^ w) (h : wordComponent w n hw = wordComponent w m hw) :
    n = m :=
  toBE_injective hn hm (congrArg KeyComponent.bytes h)

@[simp] theorem u64Component_inj {a b : U64} : u64Component a = u64Component b ↔ a = b := by
  refine ⟨fun h => Fin.ext (wordComponent_inj _ a.isLt b.isLt h), fun h => h ▸ rfl⟩

variable {a b : U32}

@[simp] theorem u32Component_inj : u32Component a = u32Component b ↔ a = b := by
  refine ⟨fun h => Fin.ext (wordComponent_inj _ a.isLt b.isLt h), fun h => h ▸ rfl⟩

@[simp] theorem deviceComponent_inj {a b : DeviceId} :
    deviceComponent a = deviceComponent b ↔ a = b :=
  ⟨fun h => ByteArr.ext (congrArg KeyComponent.bytes h), fun h => h ▸ rfl⟩

theorem u32Component_lt (h : a < b) : u32Component a < u32Component b :=
  KeyComponent.lt_iff.mpr (toBE_lt_toBE b.isLt h)

/-- The depth of a key fits the two bytes of its component. -/
theorem depthComponent_inj {d e : Nat} (hd : d ≤ maxComponents) (he : e ≤ maxComponents)
    (h : depthComponent d = depthComponent e) : d = e := by
  simp only [maxComponents] at hd he
  exact wordComponent_inj _ (by omega) (by omega) h

/-! ## Key builders -/

/-- The two components every key of a space and a kind begins with. -/
def kindHead (space : SpaceId) (kind : RecordKind) : List KeyComponent :=
  [spaceComponent space, kind.component]

/-- `data_key`. -/
def dataKey (space : SpaceId) (key : Key) : Bytes :=
  encodeComponents (kindHead space .data ++ key.components)

/-- `user_key_from_data`. -/
def userKeyFromData (storageKey : Bytes) : Option Key := do
  let components ← (decodeComponents storageKey).toOption
  if 2 ≤ components.length then (Key.new (components.drop 2)).toOption else none

/-- `data_scan_all`. -/
def dataScanAll (space : SpaceId) : Bytes := encodeComponents (kindHead space .data)

/-- `prefix_meta_key`, whose callers pass the components of a key. -/
def prefixMetaKey (space : SpaceId) (head : Key) : Bytes :=
  encodeComponents
    (kindHead space .prefixMeta ++ depthComponent head.components.length :: head.components)

/-- `root_meta_key`. -/
def rootMetaKey (space : SpaceId) : Bytes :=
  encodeComponents (kindHead space .spaceMeta ++ [rootComponent])

/-- The components of `range_delete_key` after space and kind. -/
def rangeComponents : Range → List KeyComponent
  | .full => [depthComponent 0]
  | .prefixed p => depthComponent p.components.length :: p.components

/-- `range_delete_key`. -/
def rangeDeleteKey (space : SpaceId) (range : Range) : Bytes :=
  encodeComponents (kindHead space .rangeDelete ++ rangeComponents range)

/-- `range_delete_parts`. -/
def rangeDeleteParts (storageKey : Bytes) : Option (SpaceId × Range) := do
  let components ← (decodeComponents storageKey).toOption
  let first ← components[0]?
  let space ← ByteArr.ofBytes 16 first.bytes
  let kind ← components[1]?
  if kind.bytes = [RecordKind.rangeDelete.toU8] then
    let third ← components[2]?
    let depth ← ByteArr.ofBytes 2 third.bytes
    let depth := ofBE depth.bytes
    if components.length = 3 + depth then
      if depth = 0 then some (space, .full)
      else do
        let p ← (Key.new (components.drop 3)).toOption
        some (space, .prefixed p)
    else none
  else none

/-- `covering_range_delete_keys`. -/
def coveringRangeDeleteKeys (space : SpaceId) (target : Range) : List Bytes :=
  target.covering.map (rangeDeleteKey space)

/-- `AdmissionTarget`. -/
inductive AdmissionTarget where
  | point (key : Key)
  | range (range : Range)
  deriving DecidableEq

/-- `admission_header_key`. -/
def admissionHeaderKey (space : SpaceId) (seq : AdmissionSeq) : Bytes :=
  encodeComponents (kindHead space .admissionLog ++ [u64Component seq, byteComponent 0])

/-- The components of an operation key after the batch's sequence. -/
def opComponents (opIndex : U32) : AdmissionTarget → List KeyComponent
  | .point key => u32Component opIndex :: byteComponent 0 :: key.components
  | .range .full => [u32Component opIndex, byteComponent 1]
  | .range (.prefixed p) => u32Component opIndex :: byteComponent 2 :: p.components

/-- The components shared by the operation keys of one batch. -/
def opHead (space : SpaceId) (seq : AdmissionSeq) : List KeyComponent :=
  kindHead space .admissionLog ++ [u64Component seq, byteComponent 1]

/-- `admission_op_key`. -/
def admissionOpKey (space : SpaceId) (seq : AdmissionSeq) (opIndex : U32) (key : Key) : Bytes :=
  encodeComponents (opHead space seq ++ opComponents opIndex (.point key))

/-- `admission_range_op_key`. -/
def admissionRangeOpKey (space : SpaceId) (seq : AdmissionSeq) (opIndex : U32)
    (range : Range) : Bytes :=
  encodeComponents (opHead space seq ++ opComponents opIndex (.range range))

/-- `admission_op_scan`. -/
def admissionOpScan (space : SpaceId) (seq : AdmissionSeq) : Bytes :=
  encodeComponents (opHead space seq)

/-- The target of an operation key: the byte that names its kind and the suffix. -/
def parseTarget (kind : U8) (suffix : List KeyComponent) : Option AdmissionTarget :=
  if kind = 0 then (Key.new suffix).toOption.map .point
  else if kind = 1 ∧ suffix = [] then some (.range .full)
  else if kind = 2 then (Key.new suffix).toOption.map fun p => .range (.prefixed p)
  else none

/-- `admission_op_parts`. -/
def admissionOpParts (storageKey : Bytes) : Option (AdmissionSeq × U32 × AdmissionTarget) := do
  let components ← (decodeComponents storageKey).toOption
  let opKind ← components[3]?
  if opKind.bytes = [1] then
    let seq ← components[2]?
    let seq ← ByteArr.ofBytes 8 seq.bytes
    let opIndex ← components[4]?
    let opIndex ← ByteArr.ofBytes 4 opIndex.bytes
    let targetKind ← components[5]?
    match targetKind.bytes with
    | [kind] => do
        let target ← parseTarget kind (components.drop 6)
        some (U64.ofNat (ofBE seq.bytes), U32.ofNat (ofBE opIndex.bytes), target)
    | _ => none
  else none

/-- `device_key`. -/
def deviceKey (space : SpaceId) (device : DeviceId) : Bytes :=
  encodeComponents (kindHead space .device ++ [deviceComponent device])

/-- `lease_by_id_key`. -/
def leaseByIdKey (space : SpaceId) (id : LeaseId) : Bytes :=
  encodeComponents (kindHead space .leaseById ++ [u64Component id])

/-- `lease_by_id_scan`. -/
def leaseByIdScan (space : SpaceId) : Bytes := encodeComponents (kindHead space .leaseById)

/-- `lease_by_prefix_key`. -/
def leaseByPrefixKey (space : SpaceId) (leasePrefix : Key) (id : LeaseId) : Bytes :=
  encodeComponents (kindHead space .leaseByPrefix ++
    depthComponent leasePrefix.components.length :: (leasePrefix.components ++ [u64Component id]))

/-- `lease_by_prefix_scan`. -/
def leaseByPrefixScan (space : SpaceId) (depth : Nat) (head : List KeyComponent) : Bytes :=
  encodeComponents (kindHead space .leaseByPrefix ++ depthComponent depth :: head)

/-- `counters_key`. -/
def countersKey (space : SpaceId) : Bytes :=
  encodeComponents (kindHead space .spaceMeta ++ [countersComponent])

/-- The key of the aggregate of a range: the Full root or a PrefixMeta record. -/
def aggregateKey (space : SpaceId) : Range → Bytes
  | .full => rootMetaKey space
  | .prefixed p => prefixMetaKey space p

/-! ## Parsers undo builders -/

@[simp] theorem userKeyFromData_dataKey (space : SpaceId) (key : Key) :
    userKeyFromData (dataKey space key) = some key := by
  simp only [userKeyFromData, dataKey, decodeComponents_encodeComponents]
  simp [kindHead, Except.toOption]

theorem rangeComponents_injective : Function.Injective rangeComponents := by
  intro a b h
  cases a with
  | full =>
    cases b with
    | full => rfl
    | prefixed q =>
      have : q.components = [] := (tail_eq_of_cons_eq h).symm
      exact absurd this q.ne_nil
  | prefixed p =>
    cases b with
    | full => exact absurd (tail_eq_of_cons_eq h) p.ne_nil
    | prefixed q => exact congrArg Range.prefixed (Key.ext (tail_eq_of_cons_eq h))

@[simp] theorem rangeDeleteParts_rangeDeleteKey (space : SpaceId) (range : Range) :
    rangeDeleteParts (rangeDeleteKey space range) = some (space, range) := by
  have hspace : ByteArr.ofBytes 16 (spaceComponent space).bytes = some space :=
    ByteArr.ofBytes_bytes space
  have hdepth : ∀ d, d ≤ maxComponents →
      (ByteArr.ofBytes 2 (depthComponent d).bytes).map (fun a => ofBE a.bytes) = some d := by
    intro d hd
    have hword : ByteArr.ofBytes 2 (depthComponent d).bytes = some ⟨toBE 2 d, length_toBE 2 d⟩ :=
      ByteArr.ofBytes_bytes (n := 2) ⟨toBE 2 d, length_toBE 2 d⟩
    rw [hword, Option.map_some, ofBE_toBE]
    simp only [maxComponents] at hd
    omega
  simp only [rangeDeleteParts, rangeDeleteKey, decodeComponents_encodeComponents]
  cases range with
  | full =>
    obtain ⟨a, ha, hd⟩ := Option.map_eq_some_iff.mp (hdepth 0 (Nat.zero_le _))
    simp [kindHead, rangeComponents, Except.toOption, hspace, ha, hd, RecordKind.component,
      byteComponent]
  | prefixed p =>
    obtain ⟨a, ha, hd⟩ := Option.map_eq_some_iff.mp (hdepth _ p.count_le)
    have hpos : p.components.length ≠ 0 := by simpa using p.ne_nil
    simp [kindHead, rangeComponents, Except.toOption, hspace, ha, hd, RecordKind.component,
      byteComponent, hpos]
    omega

/-- The key of one operation of a batch, whichever its target. -/
def targetKey (space : SpaceId) (seq : AdmissionSeq) (opIndex : U32) :
    AdmissionTarget → Bytes
  | .point key => admissionOpKey space seq opIndex key
  | .range range => admissionRangeOpKey space seq opIndex range

theorem targetKey_eq (space : SpaceId) (seq : AdmissionSeq) (opIndex : U32)
    (target : AdmissionTarget) :
    targetKey space seq opIndex target =
      encodeComponents (opHead space seq ++ opComponents opIndex target) := by
  cases target <;> rfl

@[simp] theorem admissionOpParts_targetKey (space : SpaceId) (seq : AdmissionSeq)
    (opIndex : U32) (target : AdmissionTarget) :
    admissionOpParts (targetKey space seq opIndex target) = some (seq, opIndex, target) := by
  have hseq : ByteArr.ofBytes 8 (u64Component seq).bytes =
      some ⟨toBE 8 seq.val, length_toBE 8 _⟩ :=
    ByteArr.ofBytes_bytes (n := 8) ⟨toBE 8 seq.val, length_toBE 8 _⟩
  have hop : ByteArr.ofBytes 4 (u32Component opIndex).bytes =
      some ⟨toBE 4 opIndex.val, length_toBE 4 _⟩ :=
    ByteArr.ofBytes_bytes (n := 4) ⟨toBE 4 opIndex.val, length_toBE 4 _⟩
  have hseqval : U64.ofNat (ofBE (toBE 8 seq.val)) = seq := by
    rw [ofBE_toBE seq.isLt, U64.ofNat_val]
  have hopval : U32.ofNat (ofBE (toBE 4 opIndex.val)) = opIndex := by
    rw [ofBE_toBE opIndex.isLt, U32.ofNat_val]
  rw [targetKey_eq]
  simp only [admissionOpParts, decodeComponents_encodeComponents]
  rcases target with key | (_ | p) <;>
    simp [opHead, kindHead, opComponents, Except.toOption, byteComponent, parseTarget, hseq, hop,
      hseqval, hopval]

/-! ## Every key of a space -/

/-- The records a space writes, named by what they are about. -/
inductive StorageKey where
  | data (key : Key)
  | rangeDelete (range : Range)
  | leaseByPrefix (leasePrefix : Key) (id : LeaseId)
  | leaseById (id : LeaseId)
  | counters
  | aggregate (range : Range)
  | device (device : DeviceId)
  | header (seq : AdmissionSeq)
  | op (seq : AdmissionSeq) (opIndex : U32) (target : AdmissionTarget)
  deriving DecidableEq

namespace StorageKey

/-- The record kind of a key. -/
def kind : StorageKey → RecordKind
  | data _ => .data
  | rangeDelete _ => .rangeDelete
  | leaseByPrefix _ _ => .leaseByPrefix
  | leaseById _ => .leaseById
  | counters => .spaceMeta
  | aggregate .full => .spaceMeta
  | aggregate (.prefixed _) => .prefixMeta
  | device _ => .device
  | header _ => .admissionLog
  | op _ _ _ => .admissionLog

/-- The components of a key after space and kind. -/
def tail : StorageKey → List KeyComponent
  | data key => key.components
  | rangeDelete range => rangeComponents range
  | leaseByPrefix p id =>
      depthComponent p.components.length :: (p.components ++ [u64Component id])
  | leaseById id => [u64Component id]
  | counters => [countersComponent]
  | aggregate .full => [rootComponent]
  | aggregate (.prefixed p) => depthComponent p.components.length :: p.components
  | device d => [deviceComponent d]
  | header seq => [u64Component seq, byteComponent 0]
  | op seq opIndex target => [u64Component seq, byteComponent 1] ++ opComponents opIndex target

/-- The storage key as bytes. -/
def encode (space : SpaceId) (key : StorageKey) : Bytes :=
  encodeComponents (kindHead space key.kind ++ key.tail)

theorem opComponents_injective {i j : U32} {s t : AdmissionTarget}
    (h : opComponents i s = opComponents j t) : i = j ∧ s = t := by
  have hhead : i = j := by
    rcases s with key | (_ | p) <;> rcases t with key' | (_ | p') <;>
      exact u32Component_inj.mp (head_eq_of_cons_eq h)
  refine ⟨hhead, ?_⟩
  subst hhead
  rcases s with key | (_ | p) <;> rcases t with key' | (_ | p') <;>
    simp [opComponents] at h <;> first | rfl | rw [Key.ext h]

theorem rootComponent_ne_counters : countersComponent ≠ rootComponent := by
  intro h
  exact absurd (congrArg KeyComponent.bytes h) (by decide)

variable {a b : StorageKey}

/-- Keys of one kind are told apart by their tails. -/
theorem eq_of_tail_eq (hkind : a.kind = b.kind) (htail : a.tail = b.tail) : a = b := by
  rcases a with k | R | ⟨p, id⟩ | id | _ | (_ | p) | d | seq | ⟨seq, i, t⟩ <;>
    rcases b with k' | R' | ⟨p', id'⟩ | id' | _ | (_ | p') | d' | seq' | ⟨seq', i', t'⟩ <;>
    try (exact RecordKind.noConfusion hkind)
  · exact congrArg data (Key.ext htail)
  · exact congrArg rangeDelete (rangeComponents_injective htail)
  · obtain ⟨hp, hid⟩ := append_inj' (tail_eq_of_cons_eq htail) rfl
    rw [Key.ext hp, u64Component_inj.mp (head_eq_of_cons_eq hid)]
  · rw [u64Component_inj.mp (head_eq_of_cons_eq htail)]
  · rfl
  · exact absurd (head_eq_of_cons_eq htail) rootComponent_ne_counters
  · exact absurd (head_eq_of_cons_eq htail).symm rootComponent_ne_counters
  · rfl
  · rw [Key.ext (tail_eq_of_cons_eq htail)]
  · rw [deviceComponent_inj.mp (head_eq_of_cons_eq htail)]
  · rw [u64Component_inj.mp (head_eq_of_cons_eq htail)]
  · simp [tail] at htail
  · simp [tail] at htail
  · simp only [tail, cons_append, nil_append, List.cons.injEq, u64Component_inj,
      true_and] at htail
    obtain ⟨hi, ht⟩ := opComponents_injective htail.2
    rw [htail.1, hi, ht]

/-- No two records of a space share a storage key. -/
theorem encode_injective (space : SpaceId) : Function.Injective (encode space) := by
  intro a b h
  have hlist := encodeComponents_injective h
  obtain ⟨hhead, htail⟩ := append_inj hlist rfl
  have hkind : a.kind = b.kind := by simpa [kindHead] using hhead
  exact eq_of_tail_eq hkind htail

@[simp] theorem encode_inj (space : SpaceId) : a.encode space = b.encode space ↔ a = b :=
  (encode_injective space).eq_iff

/-- The record keys under the byte prefix of a component list. -/
theorem isPrefix_encode_iff (space : SpaceId) (kind : RecordKind) (head : List KeyComponent)
    (key : StorageKey) :
    encodeComponents (kindHead space kind ++ head) <+: key.encode space ↔
      key.kind = kind ∧ head <+: key.tail := by
  rw [encode, encodeComponents_isPrefix_iff]
  simp only [kindHead, cons_append, nil_append, cons_prefix_cons, true_and,
    kind_component_inj]
  exact ⟨fun h => ⟨h.1.symm, h.2⟩, fun h => ⟨h.1.symm, h.2⟩⟩

end StorageKey

end Homebase.Server
