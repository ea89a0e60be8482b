import Homebase.Foundation.Window
import Homebase.Multilite.Overlay
import Homebase.Refine.Wal

set_option autoImplicit false

/-!
# Branch images as byte arrays

`imageRead` and `imageCall` are the plain byte array a branch stands for.  `PageOverlay.byteAt`
is the byte the overlay holds for a position, wherever its page is, and `PageOverlay.Sound` is
what every call keeps: pages have their size, spilled pages lie apart inside the temporary file,
and the pinned image shows only below a page boundary.
-/

namespace Homebase.Multilite

open Foundation List

/-! ## The byte array -/

/-- The byte a branch shows: the two format bytes always say rollback mode. -/
def shown (f : Nat → U8) (position : Nat) : U8 :=
  if position = 18 ∨ position = 19 then 1 else f position

/-- A read of a byte array: zeroes after its end, and whether the range was inside. -/
def imageRead (bytes : Bytes) (offset length : Nat) : Bytes × Bool :=
  (window (shown fun position => bytes.getD position 0) offset length,
    decide (length ≤ bytes.length - offset))

/-- One past the last byte that a page number can name. -/
def addressable (pageSize : Nat) : Nat := (2 ^ 32 - 1) * pageSize

/-- What a call does to a byte array; a call that is refused does nothing. -/
def imageCall (pageSize : Nat) (bytes : Bytes) : BranchCall → Bytes
  | .write offset source _ =>
    if addressable pageSize < offset + source.length then bytes
    else writeAllAt bytes offset source
  | .truncate size =>
    if size % pageSize = 0 ∧ size / pageSize + 1 < 2 ^ 32 then (padTo size bytes).take size
    else bytes

/-! ## Byte strings -/

@[simp] theorem length_padTo (length : Nat) (bytes : Bytes) :
    (padTo length bytes).length = max bytes.length length := by
  simp only [padTo, length_append, length_replicate]
  omega

@[simp] theorem getD_padTo (length : Nat) (bytes : Bytes) (i : Nat) :
    (padTo length bytes).getD i 0 = bytes.getD i 0 := by
  simp only [padTo, getD_eq_getElem?_getD, getElem?_append]
  split
  · rfl
  · rename_i h
    rw [getElem?_eq_none (Nat.not_lt.mp h), getElem?_replicate]
    split <;> rfl

@[simp] theorem length_writeAllAt (file : Bytes) (offset : Nat) (source : Bytes) :
    (writeAllAt file offset source).length = max file.length (offset + source.length) := by
  simp only [writeAllAt, length_append, length_take, length_padTo, length_drop]
  omega

theorem getD_take (bytes : Bytes) (n i : Nat) :
    (bytes.take n).getD i 0 = if i < n then bytes.getD i 0 else 0 := by
  rw [getD_eq_getElem?_getD, getElem?_take]
  split
  · rw [getD_eq_getElem?_getD]
  · rfl

/-- A write changes its range and nothing else. -/
theorem getD_writeAllAt (file : Bytes) (offset : Nat) (source : Bytes) (i : Nat) :
    (writeAllAt file offset source).getD i 0 =
      if offset ≤ i ∧ i < offset + source.length then source.getD (i - offset) 0
      else file.getD i 0 := by
  have hfront : ((padTo offset file).take offset).length = offset := by
    rw [length_take, length_padTo]
    omega
  rw [writeAllAt, append_assoc, getD_eq_getElem?_getD, getElem?_append, hfront]
  by_cases hlow : i < offset
  · rw [if_pos hlow, ← getD_eq_getElem?_getD, getD_take, if_pos hlow, getD_padTo,
      if_neg (by omega)]
  · rw [if_neg hlow, getElem?_append]
    by_cases hin : i - offset < source.length
    · rw [if_pos hin, if_pos (by omega), getD_eq_getElem?_getD]
    · rw [if_neg hin, getElem?_drop, if_neg (by omega), getD_eq_getElem?_getD]
      congr 2
      omega

theorem getD_segment (file : Bytes) {offset amount i : Nat} (h : i < amount) :
    (segment file offset (offset + amount)).getD i 0 = file.getD (offset + i) 0 := by
  rw [segment, getD_take, if_pos (by omega), getD_eq_getElem?_getD, getElem?_drop,
    getD_eq_getElem?_getD]

/-- The format bytes are set in what is read, wherever the read begins. -/
theorem patchRollbackHeader_window (f : Nat → U8) (offset length : Nat) :
    patchRollbackHeader offset (window f offset length) = window (shown f) offset length := by
  refine eq_window (by simp only [patchRollbackHeader]; split <;> split <;> simp) 0 fun i hi => ?_
  simp only [patchRollbackHeader, getD_eq_getElem?_getD, shown]
  split <;> split <;>
    simp only [getElem?_set, length_set, length_window, getElem?_window] <;>
    split_ifs <;> first | rfl | omega

theorem padTo_window (f : Nat → U8) (offset : Nat) {readable length : Nat} (h : readable ≤ length) :
    padTo length (window f offset readable) =
      window (fun position => if position < offset + readable then f position else 0) offset
        length := by
  refine eq_window (by rw [length_padTo, length_window]; omega) 0 fun i hi => ?_
  rw [getD_padTo]
  by_cases hin : i < readable
  · rw [getD_window f hin, if_pos (by omega)]
  · rw [if_neg (by omega), getD_eq_getElem?_getD, getElem?_window, if_neg hin]
    rfl

/-! ## The pinned image -/

namespace SnapshotReader

variable {reader : SnapshotReader}

/-- The byte of the image at a position. -/
def byteAt (reader : SnapshotReader) (position : Nat) : U8 :=
  let (file, start) := reader.source (U32.ofNat (position / reader.pageSize + 1))
    (position % reader.pageSize)
  file.getD start 0

/-- The image, as one byte string. -/
def image (reader : SnapshotReader) : Bytes := window reader.byteAt 0 reader.logicalSize

/-- The sources hold every page of the image. -/
def Readable (reader : SnapshotReader) : Prop :=
  ∀ page : U32, 0 < page.val → page.val ≤ reader.snapshot.pageCount →
    (reader.source page 0).2 + reader.pageSize ≤ (reader.source page 0).1.length

theorem pageSize_pos (reader : SnapshotReader) : 0 < reader.pageSize := by
  have h := reader.pageSize_valid.1.1
  rw [pageSize]
  omega

theorem source_shift (reader : SnapshotReader) (page : U32) (within i : Nat) :
    (reader.source page (within + i)).1 = (reader.source page within).1 ∧
      (reader.source page (within + i)).2 = (reader.source page within).2 + i := by
  unfold source
  split <;> exact ⟨rfl, (Nat.add_assoc _ _ _).symm⟩

/-- The page of a position of the image. -/
theorem page_of_lt {position : Nat} (h : position < reader.logicalSize) :
    position / reader.pageSize + 1 ≤ reader.snapshot.pageCount :=
  Nat.succ_le_of_lt ((Nat.div_lt_iff_lt_mul reader.pageSize_pos).mpr h)

/-- A piece that lies in one page. -/
theorem readExactAt_source (hr : reader.Readable) {position amount : Nat}
    (hlt : position < reader.logicalSize)
    (hwithin : position % reader.pageSize + amount ≤ reader.pageSize) :
    readExactAt (reader.source (U32.ofNat (position / reader.pageSize + 1))
        (position % reader.pageSize)).1
      (reader.source (U32.ofNat (position / reader.pageSize + 1)) (position % reader.pageSize)).2
      amount = window reader.byteAt position amount := by
  have hpage := page_of_lt hlt
  have hval : (U32.ofNat (position / reader.pageSize + 1)).val = position / reader.pageSize + 1 :=
    U32.val_ofNat (Nat.lt_of_le_of_lt hpage reader.pageCount_lt)
  have hroom := hr (U32.ofNat (position / reader.pageSize + 1))
    (by rw [hval]; exact Nat.succ_pos _) (by rw [hval]; exact hpage)
  obtain ⟨hfile, hstart⟩ := reader.source_shift (U32.ofNat (position / reader.pageSize + 1)) 0
    (position % reader.pageSize)
  rw [Nat.zero_add] at hfile hstart
  refine eq_window ?_ 0 fun i hi => ?_
  · rw [readExactAt]
    exact length_segment (by rw [hfile, hstart]; omega)
  · obtain ⟨hfile', hstart'⟩ := reader.source_shift (U32.ofNat (position / reader.pageSize + 1))
      (position % reader.pageSize) i
    rw [readExactAt, getD_segment _ hi, byteAt, div_add_within (by omega),
      mod_add_within (by omega)]
    simp only [hfile', hstart']

/-- The loop copies the image; the invariant is what has been copied. -/
theorem readPages_window (hr : reader.Readable) {offset readable : Nat}
    (hroom : 0 < readable → offset + readable ≤ reader.logicalSize) {fuel copied : Nat}
    (hle : copied ≤ readable) (hfuel : readable ≤ fuel + copied) :
    reader.readPages offset readable fuel (window reader.byteAt offset copied) =
      some (window reader.byteAt offset readable, true) := by
  induction fuel generalizing copied with
  | zero =>
    rw [show copied = readable by omega]
    rfl
  | succ fuel ih =>
    rw [readPages, length_window]
    by_cases hmore : copied < readable
    · have hlt : offset + copied < reader.logicalSize := by
        have := hroom (by omega)
        omega
      have hpos := Nat.mod_lt (offset + copied) reader.pageSize_pos
      have hpage := Nat.lt_of_le_of_lt (page_of_lt hlt) reader.pageCount_lt
      have hwithin : (offset + copied) % reader.pageSize +
          min (reader.pageSize - (offset + copied) % reader.pageSize) (readable - copied) ≤
            reader.pageSize := by omega
      have hpiece := readExactAt_source hr hlt hwithin
      rw [if_pos hmore]
      simp only [U32.tryFrom_of_lt hpage, hpiece, length_window, if_true]
      rw [window_add]
      exact ih (by omega) (by omega)
    · rw [if_neg hmore, show copied = readable by omega]

@[simp] theorem length_image (reader : SnapshotReader) :
    reader.image.length = reader.logicalSize := length_window _ _ _

theorem getD_image (reader : SnapshotReader) (position : Nat) :
    reader.image.getD position 0 =
      if position < reader.logicalSize then reader.byteAt position else 0 := by
  rw [image, getD_eq_getElem?_getD, getElem?_window, Nat.zero_add]
  split <;> rfl

/-- A pinned image is read as the byte array it is. -/
theorem readAt_eq_imageRead (hr : reader.Readable) (offset length : Nat) :
    reader.readAt offset length = some (imageRead reader.image offset length) := by
  have hloop : reader.readPages offset (min (reader.logicalSize - offset) length)
      (min (reader.logicalSize - offset) length) [] =
        some (window reader.byteAt offset (min (reader.logicalSize - offset) length), true) :=
    readPages_window hr (fun h => by omega) (Nat.zero_le _) (Nat.le_add_right _ _)
  simp only [readAt, hloop, Option.map_some, Bool.true_and]
  rw [padTo_window _ _ (Nat.min_le_right _ _), patchRollbackHeader_window, imageRead, length_image]
  congr 2
  · refine window_congr fun i hi => ?_
    simp only [shown, getD_image]
    congr 1
    refine if_congr ?_ rfl rfl
    omega
  · refine decide_eq_decide.mpr ?_
    omega

end SnapshotReader

/-! ## What the overlay holds -/

namespace PageOverlay

variable {reader : SnapshotReader} {overlay : PageOverlay}

/-- Where the temporary file ends. -/
def spillEnd (overlay : PageOverlay) : Nat :=
  match overlay.spill with
  | some spill => spill.nextOffset
  | none => 0

/-- A byte of a page, wherever the page is. -/
def heldByte (overlay : PageOverlay) (reader : SnapshotReader) (page : U32) (within : Nat) : U8 :=
  match overlay.pages.get page with
  | some (.memory bytes) => bytes.getD within 0
  | some (.spilled offset) => overlay.spillBytes.getD (offset + within) 0
  | none =>
    let position := (page.val - 1) * overlay.pageSize + within
    if position < overlay.snapshotFallbackSize then
      shown (fun position => reader.image.getD position 0) position
    else 0

/-- The byte the overlay holds for a position. -/
def byteAt (overlay : PageOverlay) (reader : SnapshotReader) (position : Nat) : U8 :=
  match overlay.pageNumber position with
  | some page => overlay.heldByte reader page (position % overlay.pageSize)
  | none => 0

/-- What every call keeps. -/
structure Sound (overlay : PageOverlay) (reader : SnapshotReader) : Prop where
  pageSize_eq : overlay.pageSize = reader.pageSize
  fallback_le : overlay.snapshotFallbackSize ≤ reader.logicalSize
  fallback_aligned : overlay.pageSize ∣ overlay.snapshotFallbackSize
  memory_length : ∀ page bytes, overlay.pages.get page = some (.memory bytes) →
    bytes.length = overlay.pageSize
  spilled_room : ∀ page offset, overlay.pages.get page = some (.spilled offset) →
    offset + overlay.pageSize ≤ overlay.spillEnd
  spilled_apart : ∀ page page' offset offset', overlay.pages.get page = some (.spilled offset) →
    overlay.pages.get page' = some (.spilled offset') → page ≠ page' →
      offset + overlay.pageSize ≤ offset' ∨ offset' + overlay.pageSize ≤ offset
  spillEnd_le : overlay.spillEnd ≤ overlay.spillBytes.length
  memoryBytes_eq : overlay.memoryBytes = overlay.pageSize * (memoryPages overlay.pages).length

theorem Sound.pageSize_pos (h : overlay.Sound reader) : 0 < overlay.pageSize :=
  h.pageSize_eq ▸ reader.pageSize_pos

/-! ### Positions and pages -/

variable {position : Nat} {page : U32}

theorem pageNumber_eq_some_iff :
    overlay.pageNumber position = some page ↔ page.val = position / overlay.pageSize + 1 := by
  unfold pageNumber U32.tryFrom
  by_cases h : position / overlay.pageSize + 1 < 2 ^ 32
  · rw [dif_pos h, Option.some_inj]
    exact ⟨fun heq => heq ▸ rfl, fun heq => Fin.ext heq.symm⟩
  · rw [dif_neg h]
    refine iff_of_false (fun heq => by cases heq) fun heq => ?_
    exact absurd (heq ▸ page.isLt) h

/-- A page is its number and the place in it. -/
theorem pageNumber_position (hpage : overlay.pageNumber position = some page) :
    (page.val - 1) * overlay.pageSize + position % overlay.pageSize = position := by
  rw [pageNumber_eq_some_iff.mp hpage, Nat.add_sub_cancel, Nat.mul_comm, Nat.div_add_mod]

theorem exists_pageNumber (hpos : 0 < overlay.pageSize)
    (h : position < addressable overlay.pageSize) :
    ∃ page, overlay.pageNumber position = some page := by
  have hdiv : position / overlay.pageSize < 2 ^ 32 - 1 := (Nat.div_lt_iff_lt_mul hpos).mpr h
  exact ⟨⟨position / overlay.pageSize + 1, by omega⟩, pageNumber_eq_some_iff.mpr rfl⟩

theorem pageNumber_of_le (hpos : 0 < overlay.pageSize)
    (h : addressable overlay.pageSize ≤ position) : overlay.pageNumber position = none := by
  have hdiv : 2 ^ 32 - 1 ≤ position / overlay.pageSize := (Nat.le_div_iff_mul_le hpos).mpr h
  exact U32.tryFrom_of_le (by omega)

theorem byteAt_of_page (hpage : overlay.pageNumber position = some page) :
    overlay.byteAt reader position =
      overlay.heldByte reader page (position % overlay.pageSize) := by
  simp only [byteAt, hpage]

variable {amount : Nat}

/-- A piece that lies in one page. -/
theorem window_byteAt {position : Nat} (hpage : overlay.pageNumber position = some page)
    (hwithin : position % overlay.pageSize + amount ≤ overlay.pageSize) :
    window (overlay.byteAt reader) position amount =
      window (overlay.heldByte reader page) (position % overlay.pageSize) amount := by
  refine map_congr_left fun i hi => ?_
  have hi := mem_range.mp hi
  have hnext : overlay.pageNumber (position + i) = some page := by
    rw [pageNumber_eq_some_iff, div_add_within (by omega)]
    exact pageNumber_eq_some_iff.mp hpage
  rw [byteAt_of_page hnext, mod_add_within (by omega)]

variable {within : Nat}

/-- A page lies below the fallback or above it. -/
theorem Sound.fallback_page (h : overlay.Sound reader) (page : U32) (within' : Nat)
    (hwithin' : within' < overlay.pageSize)
    (hlt : (page.val - 1) * overlay.pageSize + within < overlay.snapshotFallbackSize) :
    (page.val - 1) * overlay.pageSize + within' < overlay.snapshotFallbackSize := by
  obtain ⟨count, hcount⟩ := h.fallback_aligned
  rw [hcount, Nat.mul_comm overlay.pageSize] at hlt ⊢
  have hpage : page.val - 1 < count := by
    refine Nat.lt_of_mul_lt_mul_right (a := overlay.pageSize) ?_
    exact Nat.lt_of_le_of_lt (Nat.le_add_right _ _) hlt
  have hnext : (page.val - 1 + 1) * overlay.pageSize ≤ count * overlay.pageSize :=
    Nat.mul_le_mul_right _ hpage
  rw [Nat.succ_mul] at hnext
  omega

/-! ### Reading -/

/-- A piece of a page is read as it is held. -/
theorem Sound.readPage_window (h : overlay.Sound reader) (hr : reader.Readable) (page : U32)
    (hwithin : within + amount ≤ overlay.pageSize) (hpos : 0 < amount) :
    overlay.readPage reader page within amount =
      some (window (overlay.heldByte reader page) within amount, true) := by
  unfold readPage
  cases hget : overlay.pages.get page with
  | none =>
    dsimp only
    by_cases hfall : overlay.snapshotFallbackSize ≤ (page.val - 1) * overlay.pageSize + within
    · rw [if_pos hfall, ← window_const 0 within amount]
      congr 2
      refine window_congr fun i hi => ?_
      simp only [heldByte, hget]
      rw [if_neg]
      exact fun hlt => Nat.not_lt.mpr hfall (h.fallback_page page within (by omega) hlt)
    · have hlast := h.fallback_page page (within + amount - 1) (by omega) (Nat.not_le.mp hfall)
      have hle := h.fallback_le
      rw [if_neg hfall, reader.readAt_eq_imageRead hr, imageRead, reader.length_image,
        decide_eq_true (by omega)]
      dsimp only
      congr 2
      refine map_congr_left fun i hi => ?_
      have hi := mem_range.mp hi
      simp only [heldByte, hget]
      rw [if_pos (h.fallback_page page _ (by omega) (Nat.not_le.mp hfall)), Nat.add_assoc]
  | some stored =>
    cases stored with
    | memory bytes =>
      dsimp only
      congr 2
      refine eq_window (length_segment (by rw [h.memory_length page bytes hget]; omega)) 0
        fun i hi => ?_
      rw [getD_segment _ hi]
      simp only [heldByte, hget]
    | spilled offset =>
      have hroom := h.spilled_room page offset hget
      have hend := h.spillEnd_le
      have hpiece : readExactAt overlay.spillBytes (offset + within) amount =
          window (overlay.heldByte reader page) within amount := by
        refine eq_window (length_segment (by omega)) 0 fun i hi => ?_
        rw [readExactAt, getD_segment _ hi]
        simp only [heldByte, hget, Nat.add_assoc]
      simp only [hpiece, length_window, decide_true]

variable {offset fuel copied : Nat}

/-- The loop copies what is held; the invariant is what has been copied. -/
theorem Sound.readPages_window (h : overlay.Sound reader) (hr : reader.Readable) {readable : Nat}
    (hroom : 0 < readable → offset + readable ≤ addressable overlay.pageSize)
    (hle : copied ≤ readable) (hfuel : readable ≤ fuel + copied) :
    overlay.readPages reader offset readable fuel (window (overlay.byteAt reader) offset copied) =
      some (window (overlay.byteAt reader) offset readable, true) := by
  induction fuel generalizing copied with
  | zero =>
    rw [show copied = readable by omega]
    rfl
  | succ fuel ih =>
    rw [readPages, length_window]
    by_cases hmore : copied < readable
    · have hlt : offset + copied < addressable overlay.pageSize := by
        have := hroom (by omega)
        omega
      have hmod := Nat.mod_lt (offset + copied) h.pageSize_pos
      obtain ⟨page, hpage⟩ := exists_pageNumber h.pageSize_pos hlt
      have hwithin : (offset + copied) % overlay.pageSize +
          min (overlay.pageSize - (offset + copied) % overlay.pageSize) (readable - copied) ≤
            overlay.pageSize := by omega
      rw [if_pos hmore]
      simp only [hpage, h.readPage_window hr page hwithin (by omega),
        ← window_byteAt hpage hwithin]
      rw [window_add]
      exact ih (by omega) (by omega)
    · rw [if_neg hmore, show copied = readable by omega]

/-! ### Pages in memory -/

variable {pages : OrdMap U32 OverlayPage} {bytes : Bytes}

theorem mem_memoryPages_iff :
    (page, bytes) ∈ memoryPages pages ↔ pages.get page = some (.memory bytes) := by
  rw [memoryPages, mem_filterMap]
  constructor
  · rintro ⟨⟨page', stored⟩, hmem, heq⟩
    cases stored with
    | memory bytes' =>
      cases heq
      exact OrdMap.mem_entries_iff.mp hmem
    | spilled offset => cases heq
  · intro hget
    exact ⟨_, OrdMap.mem_entries_iff.mpr hget, rfl⟩

/-- A page that enters the memory counts once. -/
theorem length_memoryPages_insert (pages : OrdMap U32 OverlayPage) (page : U32) (bytes : Bytes) :
    (memoryPages (pages.insert page (.memory bytes))).length =
      (memoryPages (pages.erase page)).length + 1 := by
  have hperm := (pages.perm_insert page (.memory bytes)).filterMap fun entry =>
    entry.2.inMemory.map fun bytes => (entry.1, bytes)
  exact hperm.length_eq

theorem length_memoryPages_of_get (h : pages.get page = some (.memory bytes)) :
    (memoryPages pages).length = (memoryPages (pages.erase page)).length + 1 := by
  rw [← length_memoryPages_insert pages page bytes, OrdMap.insert_of_get h]

/-- Storing a page in memory. -/
theorem Sound.store (h : overlay.Sound reader) {memoryBytes : Nat}
    (hlen : bytes.length = overlay.pageSize)
    (hbytes : memoryBytes =
      overlay.pageSize * (memoryPages (overlay.pages.insert page (.memory bytes))).length) :
    { overlay with
      memoryBytes := memoryBytes
      pages := overlay.pages.insert page (.memory bytes) : PageOverlay }.Sound reader := by
  -- a spilled page of the new map is one of the old map
  have hold : ∀ page' offset, (overlay.pages.insert page (.memory bytes)).get page' =
      some (.spilled offset) → overlay.pages.get page' = some (.spilled offset) := by
    intro page' offset hget
    rw [OrdMap.get_insert] at hget
    split at hget
    · cases hget
    · exact hget
  refine
    { pageSize_eq := h.pageSize_eq
      fallback_le := h.fallback_le
      fallback_aligned := h.fallback_aligned
      memory_length := fun page' bytes' hget => ?_
      spilled_room := fun page' offset hget => h.spilled_room page' offset (hold _ _ hget)
      spilled_apart := fun _ _ _ _ hget hget' =>
        h.spilled_apart _ _ _ _ (hold _ _ hget) (hold _ _ hget')
      spillEnd_le := h.spillEnd_le
      memoryBytes_eq := hbytes }
  dsimp only at hget
  rw [OrdMap.get_insert] at hget
  split at hget
  · cases hget
    exact hlen
  · exact h.memory_length page' bytes' hget

/-! ### Writing -/

/-- What a write into one page does. -/
structure Wrote (overlay overlay' : PageOverlay) (reader : SnapshotReader) (page : U32)
    (within : Nat) (source : Bytes) : Prop where
  sound : overlay'.Sound reader
  pageSize_eq : overlay'.pageSize = overlay.pageSize
  logicalSize_eq : overlay'.logicalSize = overlay.logicalSize
  held : ∀ page' i, i < overlay.pageSize →
    overlay'.heldByte reader page' i =
      if page' = page ∧ within ≤ i ∧ i < within + source.length then source.getD (i - within) 0
      else overlay.heldByte reader page' i

/-- A page that is brought into the overlay holds what it held. -/
theorem Sound.loadPage (h : overlay.Sound reader) (hr : reader.Readable) (page : U32) :
    ∃ overlay', overlay.loadPage reader page = some overlay' ∧ overlay'.pages.contains page ∧
      overlay.Wrote overlay' reader page 0 [] := by
  unfold PageOverlay.loadPage
  by_cases hhas : overlay.pages.contains page = true
  · rw [if_pos hhas]
    refine ⟨overlay, rfl, hhas, h, rfl, rfl, fun page' i _ => ?_⟩
    rw [if_neg (by simp)]
  · have hnone : overlay.pages.get page = none := by
      simpa [OrdMap.contains] using hhas
    have hpos := h.pageSize_pos
    have hbytes : (if (page.val - 1) * overlay.pageSize < overlay.snapshotFallbackSize then
        (reader.readAt ((page.val - 1) * overlay.pageSize) overlay.pageSize).map Prod.fst
        else some (List.replicate overlay.pageSize 0)) =
          some (window (overlay.heldByte reader page) 0 overlay.pageSize) := by
      by_cases hlt : (page.val - 1) * overlay.pageSize < overlay.snapshotFallbackSize
      · rw [if_pos hlt, reader.readAt_eq_imageRead hr, imageRead, Option.map_some]
        congr 1
        refine map_congr_left fun i hi => ?_
        have hi := mem_range.mp hi
        simp only [heldByte, hnone, Nat.zero_add]
        rw [if_pos (h.fallback_page page i hi (show _ + 0 < _ from hlt))]
      · rw [if_neg hlt, ← window_const 0 0 overlay.pageSize]
        congr 1
        refine window_congr fun i hi => ?_
        simp only [heldByte, hnone]
        rw [if_neg]
        exact fun hlt' => hlt (h.fallback_page page 0 hpos hlt')
    rw [if_neg hhas]
    dsimp only
    rw [hbytes, Option.map_some]
    refine ⟨_, rfl, ?_, h.store (length_window _ _ _) ?_, rfl, rfl, fun page' i hi => ?_⟩
    · simp [OrdMap.contains]
    · rw [length_memoryPages_insert, OrdMap.erase_of_none hnone, length_window, h.memoryBytes_eq,
        Nat.mul_succ]
    · rw [if_neg (by simp)]
      by_cases heq : page' = page
      · rw [heq]
        simp only [heldByte, OrdMap.get_insert_self]
        rw [getD_window _ hi, Nat.zero_add]
        simp only [heldByte]
      · simp only [heldByte, OrdMap.get_insert_of_ne _ _ heq]
        rfl

variable {source : Bytes}

/-- The spill file is written in place. -/
theorem Sound.writeSpilled (h : overlay.Sound reader)
    (hget : overlay.pages.get page = some (.spilled offset))
    (hfit : within + source.length ≤ overlay.pageSize) :
    overlay.Wrote
      { overlay with
        spill := overlay.spill.map fun spill =>
          { spill with file := writeAllAt spill.file (offset + within) source } }
      reader page within source := by
  have hroom := h.spilled_room page offset hget
  have hend := h.spillEnd_le
  have hpos := h.pageSize_pos
  cases hspill : overlay.spill with
  | none =>
    simp only [spillEnd, hspill] at hroom
    omega
  | some spill =>
    have hfile : overlay.spillBytes = spill.file := by simp only [spillBytes, hspill]
    have hstop : overlay.spillEnd = spill.nextOffset := by simp only [spillEnd, hspill]
    refine ⟨{ h with spilled_room := ?_, spillEnd_le := ?_ }, rfl, rfl, fun page' i hi => ?_⟩
    · intro page' offset' hget'
      have := h.spilled_room page' offset' hget'
      rwa [hstop] at this
    · simp only [spillEnd, spillBytes, Option.map_some, length_writeAllAt]
      rw [hfile, hstop] at hend
      omega
    · cases hget' : overlay.pages.get page' with
      | none =>
        rw [if_neg fun hc => by rw [hc.1, hget] at hget'; cases hget']
        simp only [heldByte, hget']
      | some stored =>
        cases stored with
        | memory bytes =>
          rw [if_neg fun hc => by rw [hc.1, hget] at hget'; cases hget']
          simp only [heldByte, hget']
        | spilled offset' =>
          simp only [heldByte, hget', spillBytes, Option.map_some, hspill, getD_writeAllAt]
          by_cases hsame : page' = page
          · rw [hsame, hget] at hget'
            cases hget'
            refine if_congr ?_ ?_ rfl
            · simp only [hsame, true_and]
              omega
            · congr 1
              omega
          · have hapart := h.spilled_apart page' page offset' offset hget' hget hsame
            rw [if_neg (by omega), if_neg fun hc => hsame hc.1]

/-- A write into one page. -/
theorem Sound.writePageSlice (h : overlay.Sound reader) (hr : reader.Readable)
    (hfit : within + source.length ≤ overlay.pageSize) :
    ∃ overlay', overlay.writePageSlice reader page within source = some overlay' ∧
      overlay.Wrote overlay' reader page within source := by
  obtain ⟨loaded, hload, hhas, hsound, hsize, hlogical, hheld⟩ := h.loadPage hr page
  -- what is loaded holds what was held, so the write may be compared with it
  have hback : ∀ overlay', loaded.Wrote overlay' reader page within source →
      overlay.Wrote overlay' reader page within source := by
    rintro overlay' ⟨hsound', hsize', hlogical', hheld'⟩
    refine ⟨hsound', hsize'.trans hsize, hlogical'.trans hlogical, fun page' i hi => ?_⟩
    rw [hheld' page' i (hsize ▸ hi), hheld page' i hi]
    simp
  unfold PageOverlay.writePageSlice
  rw [hload, Option.map_some]
  rw [← hsize] at hfit
  cases hget : loaded.pages.get page with
  | none =>
    rw [OrdMap.contains, hget] at hhas
    cases hhas
  | some stored =>
    cases stored with
    | spilled offset => exact ⟨_, rfl, hback _ (hsound.writeSpilled hget hfit)⟩
    | memory bytes =>
      have hlen := hsound.memory_length page bytes hget
      refine ⟨_, rfl, hback _ ⟨hsound.store ?_ ?_, rfl, rfl, fun page' i hi => ?_⟩⟩
      · rw [length_writeAllAt]
        omega
      · rw [length_memoryPages_insert, ← length_memoryPages_of_get hget]
        exact hsound.memoryBytes_eq
      · by_cases hsame : page' = page
        · rw [hsame]
          simp only [heldByte, OrdMap.get_insert_self, getD_writeAllAt, hget, true_and]
        · rw [if_neg fun hc => hsame hc.1]
          simp only [heldByte, OrdMap.get_insert_of_ne _ _ hsame]
          rfl

variable {overlay' : PageOverlay}

/-- What a write does to the bytes of the positions. -/
theorem Wrote.byteAt (hw : overlay.Wrote overlay' reader page (position % overlay.pageSize) source)
    (hpos : 0 < overlay.pageSize) (hpage : overlay.pageNumber position = some page)
    (hfit : position % overlay.pageSize + source.length ≤ overlay.pageSize) (p : Nat) :
    overlay'.byteAt reader p =
      if position ≤ p ∧ p < position + source.length then source.getD (p - position) 0
      else overlay.byteAt reader p := by
  have hnumber : overlay'.pageNumber p = overlay.pageNumber p := by
    rw [pageNumber, pageNumber, hw.pageSize_eq]
  have hat := pageNumber_position hpage
  unfold PageOverlay.byteAt
  rw [hnumber, hw.pageSize_eq]
  cases hp : overlay.pageNumber p with
  | none =>
    -- the whole write lies in its page
    rw [if_neg]
    rintro ⟨hle, hlt⟩
    have hin : overlay.pageNumber p = some page := by
      rw [pageNumber_eq_some_iff, show p = position + (p - position) by omega,
        div_add_within (by omega)]
      exact pageNumber_eq_some_iff.mp hpage
    rw [hp] at hin
    cases hin
  | some page' =>
    have hat' := pageNumber_position hp
    dsimp only
    rw [hw.held page' _ (Nat.mod_lt p hpos)]
    by_cases hsame : page' = page
    · rw [hsame] at hat'
      refine if_congr ?_ ?_ rfl
      · simp only [hsame, true_and]
        omega
      · congr 1
        omega
    · rw [if_neg fun hc => hsame hc.1, if_neg]
      rintro ⟨hle, hlt⟩
      refine hsame (Fin.ext ?_)
      rw [pageNumber_eq_some_iff.mp hp, pageNumber_eq_some_iff.mp hpage,
        show p = position + (p - position) by omega, div_add_within (by omega)]

/-- The loop writes what is left of the source; the invariant is what has been written. -/
theorem Sound.writePages (hr : reader.Readable) (h : overlay.Sound reader)
    (hroom : offset + source.length ≤ addressable overlay.pageSize)
    (hfuel : source.length ≤ fuel + copied) :
    ∃ overlay', PageOverlay.writePages reader offset source fuel copied overlay = (overlay', none) ∧
      overlay'.Sound reader ∧ overlay'.pageSize = overlay.pageSize ∧
      overlay'.logicalSize = overlay.logicalSize ∧
      ∀ p, overlay'.byteAt reader p =
        if offset + copied ≤ p ∧ p < offset + source.length then source.getD (p - offset) 0
        else overlay.byteAt reader p := by
  induction fuel generalizing copied overlay with
  | zero =>
    refine ⟨overlay, rfl, h, rfl, rfl, fun p => ?_⟩
    rw [if_neg (by omega)]
  | succ fuel ih =>
    rw [PageOverlay.writePages]
    by_cases hmore : copied < source.length
    · have hpos := h.pageSize_pos
      have hmod := Nat.mod_lt (offset + copied) hpos
      obtain ⟨page, hpage⟩ := exists_pageNumber hpos
        (show offset + copied < addressable overlay.pageSize by omega)
      generalize hamount : min (overlay.pageSize - (offset + copied) % overlay.pageSize)
        (source.length - copied) = amount
      have hpiece : (segment source copied (copied + amount)).length = amount :=
        length_segment (by omega)
      obtain ⟨next, hnext, hwrote⟩ := h.writePageSlice hr
        (show (offset + copied) % overlay.pageSize +
          (segment source copied (copied + amount)).length ≤ overlay.pageSize by omega)
      have hbyte := hwrote.byteAt hpos hpage (by omega)
      obtain ⟨final, hfinal, hsound, hsize, hlogical, hrest⟩ := ih hwrote.sound
        (by rw [hwrote.pageSize_eq]; exact hroom)
        (show source.length ≤ fuel + (copied + amount) by omega)
      rw [if_pos hmore]
      simp only [hpage, hamount, hnext]
      refine ⟨final, hfinal, hsound, hsize.trans hwrote.pageSize_eq,
        hlogical.trans hwrote.logicalSize_eq, fun p => ?_⟩
      rw [hrest p, hbyte p, hpiece]
      by_cases hlate : offset + (copied + amount) ≤ p ∧ p < offset + source.length
      · rw [if_pos hlate, if_pos (by omega)]
      · rw [if_neg hlate]
        by_cases hin : offset + copied ≤ p ∧ p < offset + copied + amount
        · rw [if_pos hin, if_pos (by omega), getD_segment _ (by omega)]
          congr 1
          omega
        · rw [if_neg hin, if_neg (by omega)]
    · rw [if_neg hmore]
      refine ⟨overlay, rfl, h, rfl, rfl, fun p => ?_⟩
      rw [if_neg (by omega)]

/-! ### Spilling -/

/-- What the loop of spilling returns for pages of one size. -/
structure Spilled (size : Nat) (file : Bytes) (next : Nat) (pages : List (U32 × Bytes))
    (result : Bytes × Nat × List (U32 × Nat)) : Prop where
  final_eq : result.2.1 = next + size * pages.length
  final_le : next ≤ file.length → result.2.1 ≤ result.1.length
  old : ∀ i < next, result.1.getD i 0 = file.getD i 0
  keys_eq : result.2.2.map Prod.fst = pages.map Prod.fst
  room : ∀ page offset, (page, offset) ∈ result.2.2 →
    next ≤ offset ∧ offset + size ≤ result.2.1
  bytes : ∀ page offset, (page, offset) ∈ result.2.2 → ∃ bytes, (page, bytes) ∈ pages ∧
    ∀ i < size, result.1.getD (offset + i) 0 = bytes.getD i 0
  apart : result.2.2.Pairwise fun a b => a.2 + size ≤ b.2

variable {size : Nat}

theorem spillPages_spilled {pages : List (U32 × Bytes)}
    (hlen : ∀ entry ∈ pages, entry.2.length = size) (file : Bytes) (next : Nat) :
    Spilled size file next pages (spillPages file next pages) := by
  induction pages generalizing file next with
  | nil =>
    exact ⟨rfl, id, fun _ _ => rfl, rfl, fun _ _ hmem => absurd hmem not_mem_nil,
      fun _ _ hmem => absurd hmem not_mem_nil, List.Pairwise.nil⟩
  | cons entry pages ih =>
    obtain ⟨page, bytes⟩ := entry
    have hsize : bytes.length = size := hlen (page, bytes) mem_cons_self
    have hrest := ih (fun entry hmem => hlen entry (mem_cons_of_mem _ hmem))
      (writeAllAt file next bytes) (next + bytes.length)
    rw [spillPages]
    generalize spillPages (writeAllAt file next bytes) (next + bytes.length) pages = result at hrest ⊢
    obtain ⟨file', final, replacements⟩ := result
    have hfinal : final = next + bytes.length + size * pages.length := hrest.final_eq
    refine ⟨?_, fun hle => hrest.final_le ?_, fun i hi => ?_, ?_, fun page' offset hmem => ?_,
      fun page' offset hmem => ?_, ?_⟩
    · rw [length_cons, Nat.mul_succ]
      dsimp only
      omega
    · rw [length_writeAllAt]
      omega
    · dsimp only
      rw [hrest.old i (by omega), getD_writeAllAt, if_neg (by omega)]
    · dsimp only
      rw [map_cons, map_cons, hrest.keys_eq]
    · obtain heq | hmem := mem_cons.mp hmem
      · cases heq
        dsimp only
        omega
      · have hroom : next + bytes.length ≤ offset ∧ offset + size ≤ final :=
          hrest.room page' offset hmem
        dsimp only
        omega
    · obtain heq | hmem := mem_cons.mp hmem
      · cases heq
        refine ⟨bytes, mem_cons_self, fun i hi => ?_⟩
        dsimp only
        rw [hrest.old _ (by omega), getD_writeAllAt, if_pos (by omega), Nat.add_sub_cancel_left]
      · obtain ⟨bytes', hbytes, hget⟩ := hrest.bytes page' offset hmem
        exact ⟨bytes', mem_cons_of_mem _ hbytes, hget⟩
    · refine pairwise_cons.mpr ⟨fun entry hmem => ?_, hrest.apart⟩
      have := (hrest.room entry.1 entry.2 hmem).1
      dsimp only
      omega

variable {file : Bytes}

/-- What was in the file stays when a page cannot be written. -/
theorem tornFile_old {pages : List (U32 × Bytes)} (hlen : ∀ entry ∈ pages, entry.2.length = size)
    {next : Nat} (hle : next ≤ file.length) (count bytes : Nat) :
    next ≤ (tornFile file next pages count bytes).length ∧
      ∀ i < next, (tornFile file next pages count bytes).getD i 0 = file.getD i 0 := by
  have hspilled := spillPages_spilled
    (fun entry (hmem : entry ∈ pages.take count) => hlen entry (mem_of_mem_take hmem)) file next
  unfold tornFile
  generalize spillPages file next (pages.take count) = result at hspilled ⊢
  obtain ⟨file', final, replacements⟩ := result
  have hfinal : final = next + size * (pages.take count).length := hspilled.final_eq
  have hroom : final ≤ file'.length := hspilled.final_le hle
  dsimp only
  split
  · exact ⟨by omega, hspilled.old⟩
  · refine ⟨by rw [length_writeAllAt]; omega, fun i hi => ?_⟩
    rw [getD_writeAllAt, if_neg (by omega), hspilled.old i hi]

/-- A step that moves pages and changes no byte. -/
structure Keeps (overlay overlay' : PageOverlay) (reader : SnapshotReader) : Prop where
  sound : overlay'.Sound reader
  pageSize_eq : overlay'.pageSize = overlay.pageSize
  logicalSize_eq : overlay'.logicalSize = overlay.logicalSize
  held : ∀ page i, i < overlay.pageSize →
    overlay'.heldByte reader page i = overlay.heldByte reader page i

theorem Keeps.refl (h : overlay.Sound reader) : overlay.Keeps overlay reader :=
  ⟨h, rfl, rfl, fun _ _ _ => rfl⟩

theorem Keeps.byteAt (hk : overlay.Keeps overlay' reader) (hpos : 0 < overlay.pageSize) (p : Nat) :
    overlay'.byteAt reader p = overlay.byteAt reader p := by
  unfold PageOverlay.byteAt pageNumber
  rw [hk.pageSize_eq]
  split
  · exact hk.held _ _ (Nat.mod_lt p hpos)
  · rfl

theorem getD_spill (overlay : PageOverlay) :
    overlay.spill.getD ⟨[], 0⟩ = ⟨overlay.spillBytes, overlay.spillEnd⟩ := by
  unfold spillBytes spillEnd
  cases overlay.spill <;> rfl

theorem Sound.length_of_mem (h : overlay.Sound reader) :
    ∀ entry ∈ memoryPages overlay.pages, entry.2.length = overlay.pageSize :=
  fun entry hmem => h.memory_length entry.1 entry.2 (mem_memoryPages_iff.mp hmem)

/-- A page cannot be written: the map of pages is as before. -/
theorem Sound.torn (h : overlay.Sound reader) (count bytes : Nat) :
    overlay.Keeps
      { overlay with
        spill := some ⟨tornFile overlay.spillBytes overlay.spillEnd (memoryPages overlay.pages) count
          bytes, overlay.spillEnd⟩ } reader := by
  obtain ⟨hlen, hold⟩ := tornFile_old h.length_of_mem h.spillEnd_le count bytes
  refine ⟨{ h with spillEnd_le := hlen }, rfl, rfl, fun page i hi => ?_⟩
  unfold heldByte
  cases hget : overlay.pages.get page with
  | none => rfl
  | some stored =>
    cases stored with
    | memory bytes' => rfl
    | spilled offset =>
      have hroom := h.spilled_room page offset hget
      exact hold _ (by omega)

theorem memoryPages_sorted (pages : OrdMap U32 OverlayPage) :
    (memoryPages pages).Pairwise fun a b => a.1 < b.1 := by
  refine pairwise_filterMap.mpr (pages.sorted.imp fun {a b} hlt => ?_)
  intro a' ha' b' hb'
  obtain ⟨bytes, -, rfl⟩ := Option.map_eq_some_iff.mp ha'
  obtain ⟨bytes', -, rfl⟩ := Option.map_eq_some_iff.mp hb'
  exact hlt

variable {replacements : List (U32 × Nat)}

/-- Every page is where it was, or went from the memory to the file. -/
theorem get_replaced (hkeys : replacements.map Prod.fst = (memoryPages pages).map Prod.fst)
    (page : U32) :
    (∃ offset, (page, offset) ∈ replacements ∧
      (replacements.foldl (fun map entry => map.insert entry.1 (.spilled entry.2)) pages).get page =
        some (.spilled offset)) ∨
    (∀ bytes, pages.get page ≠ some (.memory bytes)) ∧
      (replacements.foldl (fun map entry => map.insert entry.1 (.spilled entry.2)) pages).get page =
        pages.get page := by
  have hsorted : (replacements.map fun entry => (entry.1, OverlayPage.spilled entry.2)).Pairwise
      fun a b => a.1 < b.1 := by
    have hfst := pairwise_map.mpr (memoryPages_sorted pages)
    rw [← hkeys] at hfst
    exact pairwise_map.mpr (pairwise_map.mp hfst)
  have hfold := OrdMap.get_foldl_insert hsorted pages page
  rw [foldl_map] at hfold
  rw [hfold]
  by_cases hmem : page ∈ replacements.map Prod.fst
  · obtain ⟨⟨page', offset⟩, hentry, rfl⟩ := mem_map.mp hmem
    have hlookup := (OrdMap.lookup_eq_some_iff hsorted).mpr (mem_map_of_mem hentry)
    exact .inl ⟨offset, hentry, by rw [hlookup]; rfl⟩
  · refine .inr ⟨fun bytes hget => ?_, ?_⟩
    · rw [hkeys] at hmem
      exact hmem (mem_map_of_mem (mem_memoryPages_iff.mpr hget))
    · have hlookup : OrdMap.lookup page
          (replacements.map fun entry => (entry.1, OverlayPage.spilled entry.2)) = none := by
        refine Option.eq_none_iff_forall_ne_some.mpr fun stored hstored => ?_
        have := (OrdMap.lookup_eq_some_iff hsorted).mp hstored
        obtain ⟨entry, hentry, heq⟩ := mem_map.mp this
        cases heq
        exact hmem (mem_map_of_mem hentry)
      rw [hlookup]
      rfl

/-- Every page in memory goes to the file. -/
theorem Sound.spillAll (h : overlay.Sound reader) {final : Nat}
    (hspilled : Spilled overlay.pageSize overlay.spillBytes overlay.spillEnd
      (memoryPages overlay.pages) (file, final, replacements)) :
    overlay.Keeps
      { overlay with
        pages := replacements.foldl (fun map entry => map.insert entry.1 (.spilled entry.2))
          overlay.pages
        spill := some ⟨file, final⟩
        memoryBytes := overlay.memoryBytes -
          ((memoryPages overlay.pages).map fun entry => entry.2.length).sum } reader := by
  have hfinal : final = overlay.spillEnd + overlay.pageSize * (memoryPages overlay.pages).length :=
    hspilled.final_eq
  have hget := @get_replaced overlay.pages replacements hspilled.keys_eq
  generalize replacements.foldl (fun map entry => map.insert entry.1 (OverlayPage.spilled entry.2))
    overlay.pages = pages at hget
  -- a spilled page was spilled before, or is one of the new ones
  have hcases : ∀ page offset, pages.get page = some (.spilled offset) →
      overlay.pages.get page = some (.spilled offset) ∨ (page, offset) ∈ replacements := by
    intro page offset hpage
    obtain ⟨offset', hmem, heq⟩ | ⟨-, heq⟩ := hget page
    · rw [hpage] at heq
      cases heq
      exact .inr hmem
    · exact .inl (heq ▸ hpage)
  have hnone : ∀ page bytes, pages.get page ≠ some (.memory bytes) := by
    intro page bytes hpage
    obtain ⟨offset', -, heq⟩ | ⟨hno, heq⟩ := hget page
    · rw [hpage] at heq
      cases heq
    · exact hno bytes (heq ▸ hpage)
  have hroom : ∀ page offset, (page, offset) ∈ replacements →
      overlay.spillEnd ≤ offset ∧ offset + overlay.pageSize ≤ final := hspilled.room
  refine ⟨⟨h.pageSize_eq, h.fallback_le, h.fallback_aligned, ?_, ?_, ?_, ?_, ?_⟩, rfl, rfl, ?_⟩
  · exact fun page bytes hpage => absurd hpage (hnone page bytes)
  · intro page offset hpage
    change offset + overlay.pageSize ≤ final
    obtain hold | hmem := hcases page offset hpage
    · have := h.spilled_room page offset hold
      omega
    · exact (hroom page offset hmem).2
  · intro page page' offset offset' hpage hpage' hne
    dsimp only
    obtain hold | hmem := hcases page offset hpage <;>
      obtain hold' | hmem' := hcases page' offset' hpage'
    · exact h.spilled_apart page page' offset offset' hold hold' hne
    · have := h.spilled_room page offset hold
      have := (hroom page' offset' hmem').1
      omega
    · have := h.spilled_room page' offset' hold'
      have := (hroom page offset hmem).1
      omega
    · have hsymm : Std.Symm fun a b : U32 × Nat =>
          a.2 + overlay.pageSize ≤ b.2 ∨ b.2 + overlay.pageSize ≤ a.2 := ⟨fun _ _ => Or.symm⟩
      have hapart : replacements.Pairwise fun a b =>
          a.2 + overlay.pageSize ≤ b.2 ∨ b.2 + overlay.pageSize ≤ a.2 :=
        hspilled.apart.imp Or.inl
      exact hapart.forall hmem hmem' fun heq => hne (congrArg Prod.fst heq)
  · exact hspilled.final_le h.spillEnd_le
  · have hempty : memoryPages pages = [] := by
      refine eq_nil_iff_forall_not_mem.mpr fun entry hmem => ?_
      exact hnone entry.1 entry.2 (mem_memoryPages_iff.mp hmem)
    have hsum : ((memoryPages overlay.pages).map fun entry => entry.2.length).sum =
        overlay.pageSize * (memoryPages overlay.pages).length := by
      rw [map_congr_left h.length_of_mem, map_const', sum_replicate, smul_eq_mul,
        Nat.mul_comm]
    dsimp only
    rw [hempty, hsum, h.memoryBytes_eq, Nat.sub_self]
    rfl
  · intro page i hi
    unfold heldByte
    obtain ⟨offset, hmem, heq⟩ | ⟨hno, heq⟩ := hget page
    · obtain ⟨bytes, hbytes, hbyte⟩ := hspilled.bytes page offset hmem
      rw [mem_memoryPages_iff.mp hbytes]
      dsimp only
      rw [heq]
      exact hbyte i hi
    · dsimp only
      rw [heq]
      cases hold : overlay.pages.get page with
      | none => rfl
      | some stored =>
        cases stored with
        | memory bytes => exact absurd hold (hno bytes)
        | spilled offset =>
          have := h.spilled_room page offset hold
          exact hspilled.old _ (by omega)

/-- Spilling moves pages and changes no byte, whichever step of it fails. -/
theorem Sound.spillIfNeeded (h : overlay.Sound reader) (fault : Option SpillFault) :
    overlay.Keeps (overlay.spillIfNeeded fault).1 reader := by
  have hspilled := spillPages_spilled h.length_of_mem overlay.spillBytes overlay.spillEnd
  unfold PageOverlay.spillIfNeeded
  simp only [getD_spill]
  generalize spillPages overlay.spillBytes overlay.spillEnd (memoryPages overlay.pages) = result
    at hspilled ⊢
  obtain ⟨file, final, replacements⟩ := result
  dsimp only
  split
  · exact .refl h
  · split
    · exact .refl h
    · split
      · split
        · exact h.torn _ _
        · exact h.spillAll hspilled
      · exact h.spillAll hspilled

end PageOverlay

end Homebase.Multilite
