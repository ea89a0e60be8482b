import Homebase.Refine.Run

set_option autoImplicit false

/-!
# Refine: reading the log back

An admitted batch is a header row and one row per operation.  The operations of a
batch are the rows under one byte prefix, in the order of their positions, and
every row reads back as the entry that was written (`readBatch_spec`).  `pull` and
`delta` therefore return slices of the log of the space a store denotes.
-/

namespace Homebase.Refine

open Foundation Homebase.Core Server Ledger List

/-! ## One operation -/

/-- The row of an operation. -/
def opEntryRow (space : SpaceId) (e : Entry) : Bytes × Bytes := (opKey space e, opBytes e)

variable {e : Entry}

theorem decode_opBytes_point {key : Key} (hkey : e.mutation.pointKey = some key)
    (hseal : e.deviceEntry.sealing.payload = []) :
    ∃ record, DataRecord.decode key (opBytes e) = some record ∧ record.entry = e := by
  have hpoint := isDeleteRange_of_pointKey hkey
  have hdecode := @DataRecord.decode_encode ⟨e, hpoint⟩ hseal
  have hk : (DataRecord.mk e hpoint).key = key := by
    have := (DataRecord.mk e hpoint).pointKey_eq
    rw [hkey] at this
    exact (Option.some.inj this).symm
  rw [hk] at hdecode
  refine ⟨⟨e, hpoint⟩, ?_, rfl⟩
  rw [opBytes, dif_neg (by simp [hpoint]), pointBytes, dif_pos hpoint]
  exact hdecode

variable {es : List Entry}

theorem decode_opBytes_range (hc : Chronicle es) (he : e ∈ es) {range : Range}
    (hrange : e.mutation = .deleteRange range) :
    ∃ record, RangeDeleteRecord.decode range (opBytes e) = some record ∧ record.entry = e := by
  -- one tombstone on its own is the summary of a chronicle of one entry
  have hone : Chronicle ([] ++ [e]) := by
    refine ⟨pairwise_singleton _ _, ?_, ?_, ?_⟩
    · intro d hd
      exact hc.seq_ne_zero d (by rwa [mem_singleton.mp hd])
    · intro a ha b hb _
      rw [mem_singleton.mp ha, mem_singleton.mp hb]
    · intro d hd
      exact hc.sealed d (by rwa [mem_singleton.mp hd])
  have hsummary := RangeSummary.new hone hrange (by simp)
  refine ⟨RangeDeleteRecord.new e (isDeleteRange_of_eq hrange), ?_, rfl⟩
  rw [opBytes, dif_pos (isDeleteRange_of_eq hrange)]
  exact RangeDeleteRecord.decode_encode hsummary.coherent (hc.sealed e he) hrange

variable {space : SpaceId}

/-- A stored operation reads back as the entry it was written for. -/
theorem readOperation_spec (hc : Chronicle es) (he : e ∈ es) {header : AdmissionHeaderRecord}
    (hdevice : e.device = header.device) (hseq : e.deviceEntry.tag.deviceSeq = header.deviceSeq)
    {entries : List Entry} (hindex : e.admission.opIndex.val = entries.length) :
    readOperation e.seq header entries (opEntryRow space e) = .ok (entries ++ [e]) := by
  have hparts : admissionOpParts (opEntryRow space e).1 =
      some (e.seq, e.admission.opIndex, opTarget e) := admissionOpParts_targetKey _ _ _ _
  have hdevice' : e.deviceEntry.tag.device = header.device := hdevice
  have horder : e.order = ⟨e.seq, e.admission.opIndex⟩ := rfl
  rw [readOperation, hparts]
  cases hm : e.mutation with
  | set key | delete key =>
    obtain ⟨record, hdecode, hentry⟩ := @decode_opBytes_point e key (by rw [hm]; rfl)
      (hc.sealed e he)
    simp [opTarget, hm, opEntryRow, hdecode, hentry, hindex, hdevice', hseq, horder, Except.map]
  | deleteRange range =>
    obtain ⟨record, hdecode, hentry⟩ := decode_opBytes_range hc he hm
    simp [opTarget, hm, opEntryRow, hdecode, hentry, hindex, hdevice', hseq, horder, Except.map]

/-- Stored operations read back one after another. -/
theorem foldlM_readOperation (space : SpaceId) (hc : Chronicle es) (header : AdmissionHeaderRecord)
    (seq : AdmissionSeq) (done : List Entry) (entries : List SealedEntry) (index : Nat)
    (hdone : done.length = index) (hsized : index + entries.length < 2 ^ 32)
    (hmem : ∀ e ∈ entriesFrom seq index entries, e ∈ es ∧ e.device = header.device ∧
      e.deviceEntry.tag.deviceSeq = header.deviceSeq) :
    ((entriesFrom seq index entries).map (opEntryRow space)).foldlM (readOperation seq header)
      done = .ok (done ++ entriesFrom seq index entries) := by
  induction entries generalizing done index with
  | nil =>
    rw [show entriesFrom seq index [] = [] from rfl, append_nil]
    rfl
  | cons entry entries ih =>
    rw [length_cons] at hsized
    rw [entriesFrom_cons] at hmem ⊢
    obtain ⟨he, hdevice, hdeviceSeq⟩ := hmem _ mem_cons_self
    have hread := @readOperation_spec _ es space hc he header hdevice hdeviceSeq done
      (by rw [hdone]; exact U32.val_ofNat (by omega))
    have hrest := ih (done ++ [⟨entry, ⟨seq, U32.ofNat index⟩⟩]) (index + 1)
      (by rw [length_append, hdone]; rfl) (by omega)
      fun e he => hmem e (mem_cons_of_mem _ he)
    rw [append_assoc, singleton_append] at hrest
    rw [map_cons, foldlM_cons]
    exact (congrArg (· >>= _) hread).trans hrest

/-! ## The rows of a batch -/

theorem opComponents_eq_cons (opIndex : U32) (target : AdmissionTarget) :
    ∃ rest, opComponents opIndex target = u32Component opIndex :: rest := by
  rcases target with key | (_ | p)
  · exact ⟨_, rfl⟩
  · exact ⟨_, rfl⟩
  · exact ⟨_, rfl⟩

variable {seq : AdmissionSeq}

/-- The rows of a batch are in the order of their positions. -/
theorem StorageKey.op_encode_lt {i j : U32} {s t : AdmissionTarget} (h : i < j) :
    (StorageKey.op seq i s).encode space < (StorageKey.op seq j t).encode space := by
  refine encodeComponents_lt ?_
  simp only [StorageKey.tail, ← append_assoc]
  refine (append_lt_append_iff _ _ _).mpr ?_
  obtain ⟨restI, hi⟩ := opComponents_eq_cons i s
  obtain ⟨restJ, hj⟩ := opComponents_eq_cons j t
  rw [hi, hj]
  exact cons_lt_cons_iff.mpr (Or.inl (u32Component_lt h))

variable {key : StorageKey}

theorem kind_eq_admissionLog_iff :
    key.kind = .admissionLog ↔
      (∃ seq, key = .header seq) ∨ ∃ seq opIndex target, key = .op seq opIndex target := by
  constructor
  · intro h
    rcases key with _ | _ | _ | _ | _ | (_ | _) | _ | seq | ⟨seq, opIndex, target⟩ <;>
      first
        | exact Or.inl ⟨seq, rfl⟩
        | exact Or.inr ⟨seq, opIndex, target, rfl⟩
        | exact RecordKind.noConfusion h
  · rintro (⟨seq, rfl⟩ | ⟨seq, opIndex, target, rfl⟩) <;> rfl

/-- The scan of a batch selects its operations. -/
theorem opHead_isPrefix_iff :
    (key.kind = .admissionLog ∧ [u64Component seq, byteComponent 1] <+: key.tail) ↔
      ∃ opIndex target, key = .op seq opIndex target := by
  rw [kind_eq_admissionLog_iff]
  constructor
  · rintro ⟨⟨seq', rfl⟩ | ⟨seq', opIndex, target, rfl⟩, hpre⟩
    · simp [StorageKey.tail, cons_prefix_cons] at hpre
    · simp only [StorageKey.tail, cons_append, nil_append, cons_prefix_cons,
        nil_prefix, and_true, u64Component_inj] at hpre
      exact ⟨opIndex, target, by rw [hpre]⟩
  · rintro ⟨opIndex, target, rfl⟩
    exact ⟨Or.inr ⟨seq, opIndex, target, rfl⟩, prefix_append _ _⟩

variable {log : List Admission} {a : Admission}

/-- The positions of a batch increase. -/
theorem pairwise_entries (h : Logged log) (ha : a ∈ log) :
    a.entries.Pairwise fun d e => d.admission.opIndex < e.admission.opIndex := by
  have hsized := h.sized a ha
  rw [Admission.entries, pairwise_map]
  refine pairwise_iff_getElem.mpr fun i j hi hj hij => ?_
  rw [length_zipIdx] at hi hj
  rw [getElem_zipIdx, getElem_zipIdx, Fin.lt_def, U32.val_ofNat (by omega),
    U32.val_ofNat (by omega)]
  omega

/-- The sequences after one and up to another; the saturating start adds nothing. -/
theorem seqInterval_eq {after through : AdmissionSeq} (hthrough : through.val + 1 < 2 ^ 64) :
    seqInterval after through =
      (List.range' (after.val + 1) (through.val - after.val)).map U64.ofNat := by
  have hone : (1 : U64).val = 1 := rfl
  have hafter := after.isLt
  rw [seqInterval, U64.val_saturatingAdd, hone]
  by_cases hmax : after.val + 1 ≤ 2 ^ 64 - 1
  · rw [min_eq_left hmax]
    congr 2
    omega
  · have hstart : through.val + 1 - min (after.val + 1) (2 ^ 64 - 1) = 0 := by omega
    have hcount : through.val - after.val = 0 := by omega
    rw [hstart, hcount]
    rfl

section Batch

variable {sha256 : Bytes → ByteArr 32} {space : SpaceId} {store : Store} {L : Space}
  (hD : Denotes sha256 space store L) (hV : L.Valid sha256 space)

include hD hV

/-- The row of an operation holds its entry. -/
theorem get_opRow {e : Entry} (he : e ∈ events L.log) :
    store.get ((opRow e).encode space) = some (opBytes e) := by
  have hlatest : latest (fun d => decide (opRow d = opRow e)) (events L.log) = some e := by
    refine latest_eq_some_of_unique he (by simp) fun d hd hrow => ?_
    have hrow : opRow d = opRow e := by simpa using hrow
    simp only [opRow, StorageKey.op.injEq] at hrow
    refine hV.logged.chronicle.eq_of_order_eq hd he ?_
    exact AdmissionOrder.ext hrow.1 hrow.2.1
  rw [hD.get]
  change (latest (fun d => decide (opRow d = opRow e)) (events L.log)).map opBytes = _
  rw [hlatest]
  rfl

variable {a : Admission}

/-- The operations of a batch, as the store returns them. -/
theorem rowsUnder_admissionOpScan (ha : a ∈ L.log) :
    rowsUnder store (admissionOpScan space a.seq) = .ok (a.entries.map (opEntryRow space)) := by
  have hscan : admissionOpScan space a.seq =
      encodeComponents (kindHead space .admissionLog ++ [u64Component a.seq, byteComponent 1]) := rfl
  have hmap : a.entries.map (opEntryRow space) =
      (a.entries.map fun e => (opRow e, opBytes e)).map (rowBytes space) := by
    rw [map_map]
    refine map_congr_left fun e _ => ?_
    exact Prod.ext (encode_opRow space e).symm rfl
  rw [hscan, hmap]
  refine rowsUnder_eq hD.known ?_ fun key v => ?_
  · refine pairwise_map.mpr (List.Pairwise.imp_of_mem ?_ (pairwise_entries hV.logged ha))
    intro d e hd he hlt
    rw [opRow, opRow, seq_of_mem_entries hd, seq_of_mem_entries he]
    exact StorageKey.op_encode_lt hlt
  · rw [opHead_isPrefix_iff, mem_map]
    constructor
    · rintro ⟨e, he, heq⟩
      cases heq
      refine ⟨get_opRow hD hV (mem_events_iff.mpr ⟨a, ha, he⟩), e.admission.opIndex, opTarget e, ?_⟩
      rw [opRow, seq_of_mem_entries he]
    · rintro ⟨hget, opIndex, target, rfl⟩
      rw [hD.get] at hget
      obtain ⟨e, hlatest, hv⟩ := Option.map_eq_some_iff.mp hget
      obtain ⟨he, hrow⟩ := mem_of_latest hlatest
      have hrow : opRow e = .op a.seq opIndex target := by simpa using hrow
      obtain ⟨b, hb, heb⟩ := mem_events_iff.mp he
      have hseq : b.seq = a.seq := by
        rw [← seq_of_mem_entries heb]
        exact (StorageKey.op.inj hrow).1
      rw [hV.logged.seq_inj hb ha hseq] at heb
      exact ⟨e, heb, by rw [hrow, hv]⟩

variable {pre post : List Admission}

/-- The header of a batch. -/
theorem get_header (hlog : L.log = pre ++ a :: post) :
    store.get (admissionHeaderKey space a.seq) =
      some (headerOf (admittedBatch sha256 space pre a)).encode := by
  have hlatest : latest (fun batch => decide (batch.admissionSeq = a.seq))
      (admittedBatches sha256 space L.log) = some (admittedBatch sha256 space pre a) := by
    refine latest_eq_some_of_unique ?_ (by simp [admittedBatch]) fun batch hbatch hseq => ?_
    · rw [hlog, admittedBatches_split]
      simp
    · obtain ⟨pre', a', post', hlog', rfl⟩ := mem_admittedFrom sha256 space hbatch
      have hseq : a'.seq = a.seq := of_decide_eq_true hseq
      obtain ⟨rfl, rfl⟩ := hV.logged.split_unique hlog' hlog hseq
      rfl
  have hget : store.get (admissionHeaderKey space a.seq) =
      (latest (fun batch => decide (batch.admissionSeq = a.seq))
        (admittedBatches sha256 space L.log)).map fun batch => (headerOf batch).encode :=
    hD.get (.header a.seq)
  rw [hget, hlatest]
  rfl

/-- A batch of the log reads back as it was admitted. -/
theorem readBatch_spec (hlog : L.log = pre ++ a :: post) :
    readBatch space store a.seq = .ok (admittedBatch sha256 space pre a) := by
  have ha : a ∈ L.log := by rw [hlog]; simp
  have hsized := hV.logged.sized a ha
  have hmem : ∀ e ∈ entriesFrom a.seq 0 a.batch.entries, e ∈ events L.log ∧
      e.device = a.device ∧ e.deviceEntry.tag.deviceSeq = a.batch.deviceSeq := by
    intro e he
    rw [← entries_eq_entriesFrom] at he
    refine ⟨mem_events_iff.mpr ⟨a, ha, he⟩, hV.logged.device_of_mem_entries ha he, ?_⟩
    obtain ⟨i, entry, hentry, rfl⟩ := mem_entries_iff.mp he
    exact (hV.logged.tagged a ha entry (mem_of_getElem? hentry)).2
  have hops := foldlM_readOperation space hV.logged.chronicle
    (headerOf (admittedBatch sha256 space pre a)) a.seq [] a.batch.entries 0 rfl (by omega) hmem
  have hcount : a.entries.length =
      (headerOf (admittedBatch sha256 space pre a)).operationCount.val := by
    have hval : (U32.ofNat a.entries.length).val = a.entries.length :=
      U32.val_ofNat (by rwa [length_entries])
    exact hval.symm
  rw [readBatch, get_header hD hV hlog, rowsUnder_admissionOpScan hD hV ha]
  simp only [Option.bind_some, AdmissionHeaderRecord.decode_encode, expect_some, ok_bind]
  rw [entries_eq_entriesFrom, hops, nil_append, ← entries_eq_entriesFrom, ok_bind,
    ensure_of _ hcount, ok_bind]
  rfl

/-! ## Intervals of the log -/

/-- Reading consecutive sequences returns that part of the log. -/
theorem mapM_readBatch {start count : Nat} (hle : start + count ≤ L.log.length) :
    ((List.range' (start + 1) count).map U64.ofNat).mapM (readBatch space store) =
      .ok (((admittedBatches sha256 space L.log).drop start).take count) := by
  induction count generalizing start with
  | zero => rfl
  | succ count ih =>
    have hlt : start < L.log.length := by omega
    have hlog : L.log = L.log.take start ++ L.log[start] :: L.log.drop (start + 1) := by
      rw [cons_getElem_drop_succ, take_append_drop]
    have hseq : U64.ofNat (start + 1) = L.log[start].seq := by
      rw [← hV.logged.dense start _ (getElem?_eq_getElem hlt), U64.ofNat_val]
    have hdrop : (admittedBatches sha256 space L.log).drop start =
        admittedBatch sha256 space (L.log.take start) L.log[start] ::
          (admittedBatches sha256 space L.log).drop (start + 1) := by
      have hsplit := drop_admittedBatches sha256 space (L.log.take start) (L.log.drop (start + 1))
        L.log[start]
      rwa [← hlog, length_take, min_eq_left hlt.le] at hsplit
    rw [range'_succ, map_cons, hseq, hdrop, take_succ_cons]
    simp only [mapM_cons, readBatch_spec hD hV hlog, ok_bind, @ih (start + 1) (by omega)]
    rfl

/-- `read_admission_interval` returns the part of the log after one sequence and up
to another. -/
theorem readAdmissionInterval_spec {after through : AdmissionSeq}
    (hthrough : through.val ≤ L.log.length) :
    readAdmissionInterval space store after through =
      .ok (((admittedBatches sha256 space L.log).drop after.val).take
        (through.val - after.val)) := by
  have hshort := hV.logged.short
  rw [readAdmissionInterval, seqInterval_eq (by omega)]
  by_cases hle : after.val ≤ through.val
  · exact mapM_readBatch hD hV (by omega)
  · rw [Nat.sub_eq_zero_of_le (by omega)]
    rfl

end Batch

/-! ## Dense pulls -/

theorem validateEntries_entriesFrom {batch : AdmittedBatch} {entries : List SealedEntry}
    {index : Nat} (hsized : index + entries.length < 2 ^ 32)
    (htags : ∀ entry ∈ entries,
      entry.tag.device = batch.device ∧ entry.tag.deviceSeq = batch.deviceSeq) :
    batch.validateEntries index (entriesFrom batch.admissionSeq index entries) = .ok () := by
  induction entries generalizing index with
  | nil => rfl
  | cons entry entries ih =>
    rw [length_cons] at hsized
    obtain ⟨hdevice, hseq⟩ := htags entry mem_cons_self
    rw [entriesFrom_cons, AdmittedBatch.validateEntries, U32.tryFrom_of_lt (by omega)]
    simp only [ne_eq, not_true_eq_false, if_false, hdevice, hseq, or_self]
    exact ih (by omega) fun entry hentry => htags entry (mem_cons_of_mem _ hentry)

/-- Every batch of a log passes the checks a client makes. -/
theorem validate_admittedBatch {sha256 : Bytes → ByteArr 32} {pre : List Admission} (h : Logged log)
    (ha : a ∈ log) : (admittedBatch sha256 space pre a).validate = .ok () := by
  have hsized := h.sized a ha
  rw [AdmittedBatch.validate]
  simp only [admittedBatch, length_entries]
  rw [U32.tryFrom_of_lt (by omega)]
  exact validateEntries_entriesFrom (by omega) (h.tagged a ha)

theorem validateBatches_of_dense {response : PullResponse} {batches : List AdmittedBatch}
    {offset : Nat} (h : ∀ i batch, batches[i]? = some batch →
      batch.admissionSeq.val = response.after.val + offset + i + 1 ∧ batch.validate = .ok ()) :
    response.validateBatches offset batches = .ok () := by
  induction batches generalizing offset with
  | nil => rfl
  | cons batch rest ih =>
    obtain ⟨hseq, hvalid⟩ := h 0 batch rfl
    have hlt := batch.admissionSeq.isLt
    have hone : (1 : U64).val = 1 := rfl
    have hexpected : ((U64.tryFrom offset).bind (U64.checkedAdd · 1)).bind
        response.after.checkedAdd = some batch.admissionSeq := by
      rw [U64.tryFrom_of_lt (by omega), Option.bind_some, U64.checkedAdd,
        U64.val_ofNat (by omega), hone, U64.tryFrom_of_lt (by omega), Option.bind_some,
        U64.checkedAdd, U64.val_ofNat (by omega), U64.tryFrom_of_lt (by omega)]
      congr 1
      rw [← U64.ofNat_val batch.admissionSeq, hseq]
      congr 1
    rw [PullResponse.validateBatches]
    simp only [hexpected, ne_eq, not_true_eq_false, if_false, hvalid]
    refine ih fun i batch' hbatch' => ?_
    have hnext := h (i + 1) batch' hbatch'
    exact ⟨by omega, hnext.2⟩

/-- Where a page of at most `maxBatches` batches ends. -/
def pageEnd (length after : Nat) (maxBatches : Option Nat) : Nat :=
  maxBatches.elim length fun limit => min (after + limit) length

section Pull

variable {sha256 : Bytes → ByteArr 32} {space : SpaceId} {store : Store} {L : Space}
  (hD : Denotes sha256 space store L) (hV : L.Valid sha256 space)

include hV

theorem validateDense_slice {after through : AdmissionSeq} (hafter : after ≤ through)
    (hthrough : through.val ≤ L.log.length) :
    PullResponse.validateDense ⟨after, through,
      ((admittedBatches sha256 space L.log).drop after.val).take (through.val - after.val)⟩ =
        .ok () := by
  have hle : after.val ≤ through.val := hafter
  have hlength : (((admittedBatches sha256 space L.log).drop after.val).take
      (through.val - after.val)).length = through.val - after.val := by
    rw [length_take, length_drop, admittedBatches, length_admittedFrom]
    omega
  have hexpected : U64.tryFrom (through.val - after.val) =
      some (U64.saturatingSub through after) := by
    have hlt := through.isLt
    rw [U64.tryFrom_of_lt (by omega), ← U64.val_saturatingSub, U64.ofNat_val]
  rw [PullResponse.validateDense, if_neg (not_lt.mpr hafter)]
  simp only [hlength, hexpected, ne_eq, not_true_eq_false, if_false]
  refine validateBatches_of_dense fun i batch hbatch => ?_
  obtain ⟨hi, hget⟩ : i < through.val - after.val ∧
      (admittedBatches sha256 space L.log)[after.val + i]? = some batch := by
    rw [getElem?_take, getElem?_drop] at hbatch
    split at hbatch
    · exact ⟨‹_›, hbatch⟩
    · cases hbatch
  rw [admittedBatches, getElem?_admittedFrom] at hget
  obtain ⟨a, ha, rfl⟩ := Option.map_eq_some_iff.mp hget
  exact ⟨hV.logged.dense _ a ha, validate_admittedBatch hV.logged (mem_of_getElem? ha)⟩

include hD

/-- `pull` returns a page of the log. -/
theorem pull_spec (req : PullRequest) (hafter : req.after.val ≤ L.log.length) :
    pull space store req = .ok ⟨req.after,
      U64.ofNat (pageEnd L.log.length req.after.val req.maxBatches),
      ((admittedBatches sha256 space L.log).drop req.after.val).take
        (pageEnd L.log.length req.after.val req.maxBatches - req.after.val)⟩ := by
  have hshort := hV.logged.short
  have hhigh : L.record.admissionHighWater.val = L.log.length := by
    rw [hV.highWater, U64.val_ofNat (by omega)]
  have hnot : ¬ req.after > L.record.admissionHighWater := by
    rw [gt_iff_lt, Fin.lt_def, hhigh]
    omega
  -- the limit of the source, clamped to a machine word
  obtain ⟨limit, hlimit, hval⟩ : ∃ limit : U64,
      (req.maxBatches.map fun limit => (U64.tryFrom limit).getD (Fin.last _)).getD (Fin.last _) =
        limit ∧ req.after.val + min (L.log.length - req.after.val) limit.val =
          pageEnd L.log.length req.after.val req.maxBatches := by
    refine ⟨_, rfl, ?_⟩
    cases req.maxBatches with
    | none =>
      simp only [Option.map_none, Option.getD_none, Fin.val_last, pageEnd, Option.elim_none]
      omega
    | some limit =>
      simp only [Option.map_some, Option.getD_some, pageEnd, Option.elim_some]
      by_cases hlt : limit < 2 ^ 64
      · rw [U64.tryFrom_of_lt hlt, Option.getD_some, U64.val_ofNat hlt]
        omega
      · rw [U64.tryFrom_of_le (not_lt.mp hlt), Option.getD_none, Fin.val_last]
        omega
  have hle : pageEnd L.log.length req.after.val req.maxBatches ≤ L.log.length := by omega
  have hthrough : U64.checkedAdd req.after
      (min (U64.saturatingSub L.record.admissionHighWater req.after) limit) =
        some (U64.ofNat (pageEnd L.log.length req.after.val req.maxBatches)) := by
    have hmin : (min (U64.saturatingSub L.record.admissionHighWater req.after) limit).val =
        min (L.log.length - req.after.val) limit.val := by
      rw [← hhigh, ← U64.val_saturatingSub]
      exact Fin.coe_min _ _
    rw [U64.checkedAdd, hmin, hval, U64.tryFrom_of_lt (by omega)]
  have hvalEnd : (U64.ofNat (pageEnd L.log.length req.after.val req.maxBatches)).val =
      pageEnd L.log.length req.after.val req.maxBatches := U64.val_ofNat (by omega)
  rw [pull, counters_spec hD, ok_bind]
  simp only [hnot, if_false, hlimit, hthrough, expect_some, ok_bind]
  have hdense := @validateDense_slice _ _ _ hV req.after
    (U64.ofNat (pageEnd L.log.length req.after.val req.maxBatches))
    (by rw [Fin.le_def, hvalEnd]; omega) (by omega)
  rw [hvalEnd] at hdense
  rw [readAdmissionInterval_spec hD hV (by omega), ok_bind]
  simp only [hvalEnd, hdense]

/-- `delta` returns the relevant entries after a sequence, in order. -/
theorem delta_spec (range : Range) (since : AdmissionSeq) :
    delta space store range since L.record.admissionHighWater =
      .ok ((events L.log).filter fun e => decide (since < e.seq) && relevant range e) := by
  have hshort := hV.logged.short
  have hhigh : L.record.admissionHighWater.val = L.log.length := by
    rw [hV.highWater, U64.val_ofNat (by omega)]
  rw [delta, effectiveHistory_spec hD.materialized hV.logged.chronicle, ok_bind,
    effective_maxAdmissionSeq hV.logged.chronicle]
  split
  next hle =>
    refine congrArg Except.ok (filter_eq_nil_iff.mpr fun e he => ?_).symm
    cases hrelevant : relevant range e with
    | false => simp
    | true =>
      have hold : e.seq ≤ since := (le_top_of_mem he hrelevant).trans hle
      simp [not_lt.mpr hold]
  next =>
    rw [readAdmissionInterval_spec hD hV hhigh.le, ok_bind, hV.logged.filter_events_after, hhigh,
      take_of_length_le (by simp [admittedBatches]), admittedBatches, drop_admittedFrom,
      ← flatMap_entries_admittedFrom sha256 space ([] ++ L.log.take since.val), filter_flatMap]
    rfl

end Pull

end Homebase.Refine
