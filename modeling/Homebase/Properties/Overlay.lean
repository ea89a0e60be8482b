import Homebase.Refine.Overlay

set_option autoImplicit false

/-!
# A branch image is a byte array

`PageOverlay.Represents` relates an overlay to the byte array it stands for.  Every call keeps
it, as long as no write crosses the last byte that a page number can name: such a write fails
after its first pages have been written.
-/

namespace Homebase.Multilite

open Foundation List

namespace PageOverlay

variable {reader : SnapshotReader} {overlay : PageOverlay} {bytes : Bytes}

/-! ## Truncation -/

variable {size : Nat} {overlay' : PageOverlay}

theorem truncate_eq_some_iff : overlay.truncate size = some overlay' ↔
      size % overlay.pageSize = 0 ∧ size / overlay.pageSize + 1 < 2 ^ 32 ∧
        overlay' =
          { overlay with
            pages := overlay.pages.retain fun page _ =>
              decide (page < U32.ofNat (size / overlay.pageSize + 1))
            memoryBytes := overlay.memoryBytes -
              ((memoryPages overlay.pages).filter fun entry =>
                decide (U32.ofNat (size / overlay.pageSize + 1) ≤ entry.1)).length * overlay.pageSize
            logicalSize := size
            snapshotFallbackSize := min overlay.snapshotFallbackSize size } := by
  unfold truncate
  by_cases hmod : size % overlay.pageSize = 0
  · rw [if_neg (not_not.mpr hmod)]
    by_cases hlt : size / overlay.pageSize + 1 < 2 ^ 32
    · rw [U32.tryFrom_of_lt hlt, Option.map_some, Option.some_inj]
      exact ⟨fun h => ⟨hmod, hlt, h.symm⟩, fun h => h.2.2.symm⟩
    · rw [U32.tryFrom_of_le (Nat.not_lt.mp hlt)]
      exact iff_of_false (fun h => by cases h) fun h => hlt h.2.1
  · rw [if_pos hmod]
    exact iff_of_false (fun h => by cases h) fun h => hmod h.1

/-- The pages that stay in memory, and those that are removed. -/
theorem length_memoryPages_retain (pages : OrdMap U32 OverlayPage) (bound : U32) :
    (memoryPages (pages.retain fun page _ => decide (page < bound))).length +
        ((memoryPages pages).filter fun entry => decide (bound ≤ entry.1)).length =
      (memoryPages pages).length := by
  have hkeep : memoryPages (pages.retain fun page _ => decide (page < bound)) =
      (memoryPages pages).filter fun entry => decide (entry.1 < bound) := by
    simp only [memoryPages, OrdMap.retain, filterMap_filter, filter_filterMap]
    refine filterMap_congr fun entry _ => ?_
    cases entry.2.inMemory <;> by_cases hlt : entry.1 < bound <;>
      simp [hlt, Option.filter]
  have hdrop : ((memoryPages pages).filter fun entry => decide (bound ≤ entry.1)) =
      (memoryPages pages).filter fun entry => !decide (entry.1 < bound) := by
    refine filter_congr fun entry _ => ?_
    rw [← decide_not]
    exact decide_eq_decide.mpr not_lt.symm
  rw [hkeep, hdrop, ← length_eq_length_filter_add]

/-- A truncation keeps the pages in front of its size. -/
theorem get_truncate (hpos : 0 < overlay.pageSize)
    (htruncate : overlay.truncate size = some overlay') {p : Nat} {page : U32}
    (hpage : overlay.pageNumber p = some page) :
    overlay'.pages.get page = if p < size then overlay.pages.get page else none := by
  obtain ⟨hmod, hlt, heq⟩ := truncate_eq_some_iff.mp htruncate
  have hsize : size / overlay.pageSize * overlay.pageSize = size :=
    Nat.div_mul_cancel (Nat.dvd_of_mod_eq_zero hmod)
  have hless : page < U32.ofNat (size / overlay.pageSize + 1) ↔ p < size := by
    change page.val < (U32.ofNat (size / overlay.pageSize + 1)).val ↔ p < size
    rw [U32.val_ofNat hlt, pageNumber_eq_some_iff.mp hpage, Nat.succ_lt_succ_iff,
      Nat.div_lt_iff_lt_mul hpos, hsize]
  rw [heq]
  dsimp only
  rw [OrdMap.get_retain]
  by_cases hp : p < size
  · rw [if_pos hp]
    cases overlay.pages.get page with
    | none => rfl
    | some stored => exact Option.filter_some_pos (decide_eq_true (hless.mpr hp))
  · rw [if_neg hp]
    cases overlay.pages.get page with
    | none => rfl
    | some stored =>
      exact Option.filter_some_neg (decide_eq_false fun h => hp (hless.mp h))

/-- A truncation removes everything from its size on. -/
theorem byteAt_truncate (hpos : 0 < overlay.pageSize)
    (htruncate : overlay.truncate size = some overlay') (p : Nat) :
    overlay'.byteAt reader p = if p < size then overlay.byteAt reader p else 0 := by
  obtain ⟨-, -, heq⟩ := truncate_eq_some_iff.mp htruncate
  have hpageSize : overlay'.pageSize = overlay.pageSize := by rw [heq]
  have hfallback : overlay'.snapshotFallbackSize = min overlay.snapshotFallbackSize size := by
    rw [heq]
  have hspill : overlay'.spillBytes = overlay.spillBytes := by rw [heq]; rfl
  unfold byteAt
  rw [show overlay'.pageNumber p = overlay.pageNumber p by rw [pageNumber, pageNumber, hpageSize],
    hpageSize]
  cases hnumber : overlay.pageNumber p with
  | none => exact (ite_self 0).symm
  | some page =>
    have hposition := pageNumber_position hnumber
    dsimp only
    unfold heldByte
    rw [get_truncate hpos htruncate hnumber, hspill, hfallback, hpageSize, hposition]
    by_cases hp : p < size
    · rw [if_pos hp, if_pos hp]
      have hmin : p < min overlay.snapshotFallbackSize size ↔
          p < overlay.snapshotFallbackSize := by omega
      simp only [hmin]
    · rw [if_neg hp, if_neg hp]
      dsimp only
      rw [if_neg (by omega)]

theorem Sound.truncate (h : overlay.Sound reader)
    (htruncate : overlay.truncate size = some overlay') : overlay'.Sound reader := by
  obtain ⟨hmod, hlt, rfl⟩ := truncate_eq_some_iff.mp htruncate
  have hcount := length_memoryPages_retain overlay.pages
    (U32.ofNat (size / overlay.pageSize + 1))
  -- the pages that stay are as they were
  have hold : ∀ page stored, (overlay.pages.retain fun page _ =>
      decide (page < U32.ofNat (size / overlay.pageSize + 1))).get page = some stored →
        overlay.pages.get page = some stored := by
    intro page stored hpage
    rw [OrdMap.get_retain] at hpage
    exact (Option.filter_eq_some_iff.mp hpage).1
  refine ⟨h.pageSize_eq, ?_, ?_, ?_, ?_, ?_, h.spillEnd_le, ?_⟩
  · exact (Nat.min_le_left _ _).trans h.fallback_le
  · dsimp only
    obtain hle | hle := Nat.le_total overlay.snapshotFallbackSize size
    · rw [Nat.min_eq_left hle]
      exact h.fallback_aligned
    · rw [Nat.min_eq_right hle]
      exact Nat.dvd_of_mod_eq_zero hmod
  · exact fun page bytes hpage => h.memory_length page bytes (hold _ _ hpage)
  · exact fun page offset hpage => h.spilled_room page offset (hold _ _ hpage)
  · exact fun page page' offset offset' hpage hpage' =>
      h.spilled_apart page page' offset offset' (hold _ _ hpage) (hold _ _ hpage')
  · dsimp only
    rw [h.memoryBytes_eq, ← hcount, Nat.mul_add, Nat.mul_comm _ overlay.pageSize,
      Nat.add_sub_cancel]

/-! ## The relation -/

/-- The overlay stands for the byte array.  The format bytes are left out: they are shown as
they have to be, whatever is held for them. -/
structure Represents (overlay : PageOverlay) (reader : SnapshotReader) (bytes : Bytes) :
    Prop where
  sound : overlay.Sound reader
  size_eq : overlay.logicalSize = bytes.length
  size_le : overlay.logicalSize ≤ addressable overlay.pageSize
  byte : ∀ p, p ≠ 18 → p ≠ 19 → overlay.byteAt reader p = bytes.getD p 0

/-- A read returns what the array returns. -/
theorem Represents.readAt (h : overlay.Represents reader bytes) (hr : reader.Readable)
    (offset length : Nat) :
    overlay.readAt reader offset length = some (imageRead bytes offset length) := by
  have hroom := h.size_le
  have hloop : overlay.readPages reader offset (min (overlay.logicalSize - offset) length)
      (min (overlay.logicalSize - offset) length) [] =
        some (window (overlay.byteAt reader) offset
          (min (overlay.logicalSize - offset) length), true) :=
    h.sound.readPages_window hr (fun hpos => by omega) (Nat.zero_le _) (Nat.le_add_right _ _)
  simp only [PageOverlay.readAt, hloop, Option.map_some, if_true]
  rw [padTo_window _ _ (Nat.min_le_right _ _), patchRollbackHeader_window, imageRead, h.size_eq]
  congr 2
  · refine window_congr fun i hi => ?_
    unfold shown
    by_cases hformat : offset + i = 18 ∨ offset + i = 19
    · rw [if_pos hformat, if_pos hformat]
    · rw [if_neg hformat, if_neg hformat]
      dsimp only
      split
      · exact h.byte _ (fun heq => hformat (.inl heq)) fun heq => hformat (.inr heq)
      · rw [getD_eq_default _ _ (by omega)]
  · refine decide_eq_decide.mpr ?_
    omega

/-! ## The calls -/

/-- The image starts as the pinned one. -/
theorem represents_new (reader : SnapshotReader) (memoryLimit : Nat) :
    (new reader memoryLimit).Represents reader reader.image := by
  have hcount := reader.pageCount_lt
  have hsize : reader.logicalSize ≤ addressable reader.pageSize :=
    Nat.mul_le_mul_right _ (by omega)
  refine ⟨⟨rfl, Nat.le_refl _, ?_, ?_, ?_, ?_, Nat.zero_le _, rfl⟩, reader.length_image.symm, hsize,
    fun p h18 h19 => ?_⟩
  · exact Nat.dvd_mul_left _ _
  · exact fun page bytes hget => by cases hget
  · exact fun page offset hget => by cases hget
  · exact fun page page' offset offset' hget => by cases hget
  · unfold byteAt
    cases hnumber : (new reader memoryLimit).pageNumber p with
    | none =>
      have hlarge : addressable reader.pageSize ≤ p := by
        by_contra hlt
        obtain ⟨page, hpage⟩ := @exists_pageNumber (new reader memoryLimit) p reader.pageSize_pos
          (Nat.not_le.mp hlt)
        rw [hnumber] at hpage
        cases hpage
      rw [reader.getD_image, if_neg (by omega)]
    | some page =>
      have hposition : (page.val - 1) * reader.pageSize + p % reader.pageSize = p :=
        pageNumber_position hnumber
      change (if (page.val - 1) * reader.pageSize + p % reader.pageSize < reader.logicalSize then
        shown (fun position => reader.image.getD position 0)
          ((page.val - 1) * reader.pageSize + p % reader.pageSize) else 0) = _
      have hshown : shown (fun position => reader.image.getD position 0) p = reader.image.getD p 0 :=
        if_neg fun hformat => hformat.elim h18 h19
      rw [hposition, hshown, reader.getD_image]
      split <;> rfl

theorem addressable_lt (reader : SnapshotReader) : addressable reader.pageSize < 2 ^ 64 := by
  have hle : reader.pageSize ≤ 65536 := reader.pageSize_valid.1.2
  have := Nat.mul_le_mul_left (2 ^ 32 - 1) hle
  unfold addressable
  omega

variable {offset : Nat} {source : Bytes}

/-- A write that ends where pages have numbers; the failure of its spill step changes nothing. -/
theorem Represents.write (h : overlay.Represents reader bytes) (hr : reader.Readable)
    (hroom : offset + source.length ≤ addressable overlay.pageSize) (fault : Option SpillFault) :
    (overlay.writeAt reader offset source fault).1.Represents reader
      (writeAllAt bytes offset source) := by
  have hlimit := addressable_lt reader
  rw [← h.sound.pageSize_eq] at hlimit
  obtain ⟨written, hwrite, hsound, hpageSize, hlogical, hbyte⟩ :=
    h.sound.writePages hr hroom (show source.length ≤ source.length + 0 by omega)
  -- the write has reached the pages; the new size is set before the pages are spilled
  have hextended : ({ written with
      logicalSize := max written.logicalSize (offset + source.length) } : PageOverlay).Sound reader :=
    { hsound with }
  have hkeeps := hextended.spillIfNeeded fault
  have hsame : ∀ p, ({ written with
      logicalSize := max written.logicalSize (offset + source.length) } : PageOverlay).byteAt
        reader p = written.byteAt reader p := fun p => rfl
  unfold writeAt
  rw [if_neg (by omega), hwrite]
  dsimp only
  refine ⟨hkeeps.sound, ?_, ?_, fun p h18 h19 => ?_⟩
  · rw [hkeeps.logicalSize_eq, length_writeAllAt, ← h.size_eq, ← hlogical]
  · rw [hkeeps.logicalSize_eq, hkeeps.pageSize_eq]
    have := h.size_le
    dsimp only
    rw [hlogical, hpageSize]
    omega
  · rw [hkeeps.byteAt hextended.pageSize_pos, hsame, hbyte p, getD_writeAllAt, Nat.add_zero,
      h.byte p h18 h19]

theorem spillIfNeeded_none (overlay : PageOverlay) : (overlay.spillIfNeeded none).2 = true := by
  unfold spillIfNeeded
  split
  · rfl
  · split
    · rename_i hfault
      cases hfault.2
    · rfl

/-- Without a fault the write succeeds. -/
theorem Represents.answer (h : overlay.Represents reader bytes) (hr : reader.Readable)
    (hroom : offset + source.length ≤ addressable overlay.pageSize) :
    (overlay.writeAt reader offset source none).2 = .written := by
  have hlimit := addressable_lt reader
  rw [← h.sound.pageSize_eq] at hlimit
  obtain ⟨written, hwrite, -⟩ :=
    h.sound.writePages hr hroom (show source.length ≤ source.length + 0 by omega)
  unfold writeAt
  rw [if_neg (by omega), hwrite]
  dsimp only
  rw [spillIfNeeded_none, if_pos rfl]

/-- A write that begins where pages have no numbers is refused. -/
theorem writeAt_of_beyond (hpos : 0 < overlay.pageSize) (hsource : source ≠ [])
    (hbeyond : addressable overlay.pageSize ≤ offset) (fault : Option SpillFault) :
    (overlay.writeAt reader offset source fault).1 = overlay := by
  unfold writeAt
  split
  · rfl
  · cases source with
    | nil => exact absurd rfl hsource
    | cons byte rest =>
      rw [length_cons, writePages, if_pos (by simp), Nat.add_zero]
      simp only [pageNumber_of_le hpos hbeyond]

theorem Represents.truncate (h : overlay.Represents reader bytes)
    (htruncate : overlay.truncate size = some overlay') :
    overlay'.Represents reader ((padTo size bytes).take size) := by
  obtain ⟨hmod, hlt, heq⟩ := truncate_eq_some_iff.mp htruncate
  have hsize : size / overlay.pageSize * overlay.pageSize = size :=
    Nat.div_mul_cancel (Nat.dvd_of_mod_eq_zero hmod)
  have hlogical : overlay'.logicalSize = size := by rw [heq]
  refine ⟨h.sound.truncate htruncate, ?_, ?_, fun p h18 h19 => ?_⟩
  · rw [hlogical, length_take, length_padTo]
    omega
  · rw [hlogical, show overlay'.pageSize = overlay.pageSize by rw [heq], ← hsize]
    exact Nat.mul_le_mul_right _ (by omega)
  · rw [byteAt_truncate h.sound.pageSize_pos htruncate, getD_take, getD_padTo, h.byte p h18 h19]

end PageOverlay

/-- No write crosses the last byte that a page number can name: it ends before it, or it is
refused as a whole. -/
def BranchCall.Fits (pageSize : Nat) : BranchCall → Prop
  | .write offset source _ =>
    addressable pageSize < offset + source.length →
      2 ^ 64 ≤ offset + source.length ∨ source ≠ [] ∧ addressable pageSize ≤ offset
  | .truncate _ => True

variable {reader : SnapshotReader}

/-- Every call does to the image what it does to the array. -/
theorem PageOverlay.Represents.call {overlay : PageOverlay} {bytes : Bytes}
    (h : overlay.Represents reader bytes) (hr : reader.Readable) {call : BranchCall}
    (hfits : call.Fits reader.pageSize) :
    (overlay.call reader call).Represents reader (imageCall reader.pageSize bytes call) := by
  have hsize := h.sound.pageSize_eq
  cases call with
  | write offset source fault =>
    dsimp only [PageOverlay.call, imageCall]
    by_cases hroom : addressable reader.pageSize < offset + source.length
    · rw [if_pos hroom]
      obtain hlarge | ⟨hsource, hbeyond⟩ := hfits hroom
      · rw [PageOverlay.writeAt, if_pos hlarge]
        exact h
      · rw [PageOverlay.writeAt_of_beyond h.sound.pageSize_pos hsource (hsize ▸ hbeyond)]
        exact h
    · rw [if_neg hroom]
      exact h.write hr (by rw [hsize]; omega) fault
  | truncate size =>
    dsimp only [PageOverlay.call, imageCall]
    cases htruncate : overlay.truncate size with
    | none =>
      rw [if_neg]
      · exact h
      · rintro ⟨hmod, hlt⟩
        rw [← hsize] at hmod hlt
        have hsome := PageOverlay.truncate_eq_some_iff.mpr ⟨hmod, hlt, rfl⟩
        rw [htruncate] at hsome
        cases hsome
    | some overlay' =>
      obtain ⟨hmod, hlt, -⟩ := PageOverlay.truncate_eq_some_iff.mp htruncate
      rw [hsize] at hmod hlt
      rw [if_pos ⟨hmod, hlt⟩]
      exact h.truncate htruncate

/-- A branch after some calls. -/
def branchAfter (reader : SnapshotReader) (memoryLimit : Nat) (calls : List BranchCall) :
    PageOverlay :=
  calls.foldl (PageOverlay.call reader) (.new reader memoryLimit)

theorem branchAfter_represents (hr : reader.Readable) (memoryLimit : Nat) {calls : List BranchCall}
    (hfits : ∀ call ∈ calls, call.Fits reader.pageSize) :
    (branchAfter reader memoryLimit calls).Represents reader
      (calls.foldl (imageCall reader.pageSize) reader.image) := by
  have hrun : ∀ (overlay : PageOverlay) (bytes : Bytes), overlay.Represents reader bytes →
      (calls.foldl (PageOverlay.call reader) overlay).Represents reader
        (calls.foldl (imageCall reader.pageSize) bytes) := by
    induction calls with
    | nil => exact fun _ _ h => h
    | cons call calls ih =>
      intro overlay bytes h
      exact ih (fun call hmem => hfits call (mem_cons_of_mem _ hmem)) _ _
        (h.call hr (hfits call mem_cons_self))
  exact hrun _ _ (PageOverlay.represents_new reader memoryLimit)

/-- A branch image is a byte array that starts as the pinned image, for every memory limit and
every sequence of writes and truncations, as long as no write crosses the last byte that a page
number can name.  Every read returns the bytes and the flag of the array, the size is that of
the array, and the memory that is accounted for is that of the pages that are not spilled.  What
a write leaves behind does not depend on whether its spill step fails, and where it does not the
write succeeds. -/
theorem branch_is_byte_array (reader : SnapshotReader) (hr : reader.Readable) (memoryLimit : Nat)
    (calls : List BranchCall) (hfits : ∀ call ∈ calls, call.Fits reader.pageSize) :
    (branchAfter reader memoryLimit calls).logicalSize =
        (calls.foldl (imageCall reader.pageSize) reader.image).length ∧
      (∀ offset length, (branchAfter reader memoryLimit calls).readAt reader offset length =
        some (imageRead (calls.foldl (imageCall reader.pageSize) reader.image) offset length)) ∧
      (branchAfter reader memoryLimit calls).memoryBytes = reader.pageSize *
        (PageOverlay.memoryPages (branchAfter reader memoryLimit calls).pages).length ∧
      ∀ offset source, offset + source.length ≤ addressable reader.pageSize →
        ((branchAfter reader memoryLimit calls).writeAt reader offset source none).2 = .written := by
  have h := branchAfter_represents hr memoryLimit hfits
  refine ⟨h.size_eq, h.readAt hr, ?_, fun offset source hroom => h.answer hr ?_⟩
  · rw [h.sound.memoryBytes_eq, h.sound.pageSize_eq]
  · rw [h.sound.pageSize_eq]
    exact hroom

/-- A database of one page, without a WAL. -/
def onePage : SnapshotReader where
  base := List.replicate 512 5
  wal := []
  snapshot := ⟨none, 1, 512⟩
  pageSize_valid := by decide
  pageCount_lt := by decide

theorem onePage_readable : onePage.Readable := by
  intro page hpos hle
  have hone : page.val = 1 := by
    change page.val ≤ 1 at hle
    omega
  change (page.val - 1) * 512 + 0 + 512 ≤ (List.replicate 512 (5 : U8)).length
  rw [hone, length_replicate]

/-- An unaligned write into two pages whose spill step fails, a truncation to the first of them,
and a write beyond the end. -/
def shrinkThenExtend : List BranchCall :=
  [.write 510 [1, 2, 3, 4] (some (.write 1 7)), .truncate 512, .write 600 [9] none]

theorem branch_is_byte_array_shrunk :
    (∀ call ∈ shrinkThenExtend, call.Fits onePage.pageSize) ∧
      (branchAfter onePage 0 shrinkThenExtend).readAt onePage 508 5 =
        some (imageRead (shrinkThenExtend.foldl (imageCall onePage.pageSize) onePage.image) 508 5) ∧
      imageRead (shrinkThenExtend.foldl (imageCall onePage.pageSize) onePage.image) 508 5 =
        ([5, 5, 1, 2, 0], true) := by
  have hfits : ∀ call ∈ shrinkThenExtend, call.Fits onePage.pageSize := by
    intro call hmem
    simp only [shrinkThenExtend, mem_cons, not_mem_nil, or_false] at hmem
    obtain rfl | rfl | rfl := hmem
    · exact fun hlt => absurd hlt (by decide)
    · trivial
    · exact fun hlt => absurd hlt (by decide)
  have h := branch_is_byte_array onePage onePage_readable 0 shrinkThenExtend hfits
  exact ⟨hfits, h.2.1 508 5, by decide +kernel⟩

/-- An empty write beyond the last byte that a page number can name succeeds and sets the size,
and then the bytes in front of it cannot be read.  No byte array answers like that. -/
theorem read_fails_after_empty_write :
    ((PageOverlay.new onePage 0).writeAt onePage (addressable 512 + 512) [] none).2 = .written ∧
      ∀ bytes, (branchAfter onePage 0 [.write (addressable 512 + 512) [] none]).readAt onePage
        (addressable 512) 1 ≠ some (imageRead bytes (addressable 512) 1) := by
  have hread : (branchAfter onePage 0 [.write (addressable 512 + 512) [] none]).readAt onePage
      (addressable 512) 1 = none := by decide +kernel
  refine ⟨by decide +kernel, fun bytes heq => ?_⟩
  rw [hread] at heq
  cases heq

end Homebase.Multilite
