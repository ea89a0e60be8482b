import Homebase.Multilite.Sqlite

set_option autoImplicit false

/-!
# The WAL parser reads what SQLite wrote

`parseHeader_bytes` and `readFrames_sealRows` say that the parser takes in a header and
the frames behind it exactly as they were written, and stops in front of the frames of
earlier incarnations.
-/

namespace Homebase.Multilite

open Foundation List

/-! ## Words in a file -/

@[simp] theorem length_wordBytes (word : U32) : (wordBytes word).length = 4 := length_toBE 4 _

@[simp] theorem length_pairBytes (words : U32 × U32) : (pairBytes words).length = 8 := by
  simp [pairBytes]

@[simp] theorem beU32_wordBytes (word : U32) : beU32 (wordBytes word) = word := by
  have hlt : word.val < 256 ^ 4 := word.isLt
  rw [beU32, wordBytes, ofBE_toBE hlt, U32.ofNat_val]

theorem segment_append {front middle rest : Bytes} {start stop : Nat}
    (hstart : front.length = start) (hstop : start + middle.length = stop) :
    segment (front ++ (middle ++ rest)) start stop = middle := by
  subst hstart
  subst hstop
  simp [segment]

/-- A word that stands between `front` and `rest`. -/
theorem beU32_segment {front rest : Bytes} {word : U32} {start : Nat}
    (hstart : front.length = start) :
    beU32 (segment (front ++ (wordBytes word ++ rest)) start (start + 4)) = word := by
  rw [segment_append hstart (by simp), beU32_wordBytes]

/-! ## The header -/

/-- What the parser knows of a header. -/
def Origin.header (origin : Origin) : WalHeader :=
  ⟨origin.salts, origin.pageSize, origin.order, origin.checksum⟩

@[simp] theorem length_fields (origin : Origin) : origin.fields.length = 24 := by
  simp [Origin.fields]

@[simp] theorem length_bytes (origin : Origin) : origin.bytes.length = 32 := by
  simp [Origin.bytes]

theorem ofMagic_magic (order : ChecksumOrder) :
    ChecksumOrder.ofMagic order.magic = some order := by
  cases order <;> decide

/-- The words of a header, each behind the ones before it. -/
theorem Origin.bytes_words (origin : Origin) :
    origin.bytes =
      wordBytes origin.order.magic ++ (wordBytes walFormatVersion ++ (wordBytes origin.pageSize ++
        (wordBytes origin.sequence ++ (wordBytes origin.salts.1 ++ (wordBytes origin.salts.2 ++
          (wordBytes origin.checksum.1 ++ (wordBytes origin.checksum.2 ++ []))))))) := by
  simp [Origin.bytes, Origin.fields, pairBytes]

theorem parseHeader_bytes (origin : Origin) (hsize : PageSizeValid origin.pageSize) :
    parseHeader origin.bytes = .ok origin.header := by
  have magic : beU32 (segment origin.bytes 0 4) = origin.order.magic := by
    rw [origin.bytes_words]
    exact @beU32_segment [] _ _ _ rfl
  have version : beU32 (segment origin.bytes 4 8) = walFormatVersion := by
    rw [origin.bytes_words]
    exact beU32_segment (length_wordBytes _)
  have pageSize : beU32 (segment origin.bytes 8 12) = origin.pageSize := by
    rw [origin.bytes_words, ← append_assoc]
    exact beU32_segment (by simp)
  have salt₁ : beU32 (segment origin.bytes 16 20) = origin.salts.1 := by
    rw [origin.bytes_words, ← append_assoc, ← append_assoc, ← append_assoc]
    exact beU32_segment (by simp)
  have salt₂ : beU32 (segment origin.bytes 20 24) = origin.salts.2 := by
    rw [origin.bytes_words, ← append_assoc, ← append_assoc, ← append_assoc,
      ← append_assoc]
    exact beU32_segment (by simp)
  have sum₁ : beU32 (segment origin.bytes 24 28) = origin.checksum.1 := by
    rw [origin.bytes_words, ← append_assoc, ← append_assoc, ← append_assoc,
      ← append_assoc, ← append_assoc]
    exact beU32_segment (by simp)
  have sum₂ : beU32 (segment origin.bytes 28 32) = origin.checksum.2 := by
    rw [origin.bytes_words, ← append_assoc, ← append_assoc, ← append_assoc,
      ← append_assoc, ← append_assoc, ← append_assoc]
    exact beU32_segment (by simp)
  have covered : origin.bytes.take 24 = origin.fields := by
    rw [Origin.bytes, take_left' (length_fields origin)]
  unfold parseHeader
  rw [magic, version, pageSize, salt₁, salt₂, sum₁, sum₂, covered, ofMagic_magic]
  simp [walHeaderSize, hsize, Origin.header, Origin.checksum]

/-! ## Frames -/

theorem length_words (frame : Frame) : frame.words.length = 8 := by
  simp [Frame.words]

theorem length_frame (frame : Frame) :
    frame.bytes.length = frameHeaderSize + frame.data.length := by
  simp only [Frame.bytes, length_append, length_words, length_pairBytes, frameHeaderSize]

/-- The words of a frame, each behind the ones before it. -/
theorem Frame.bytes_words (frame : Frame) :
    frame.bytes =
      wordBytes frame.page ++ (wordBytes frame.pageCount ++ (wordBytes frame.salts.1 ++
        (wordBytes frame.salts.2 ++ (wordBytes frame.checksum.1 ++ (wordBytes frame.checksum.2 ++
          frame.data))))) := by
  simp [Frame.bytes, Frame.words, pairBytes]

/-- What the parser reads at the start of a frame. -/
theorem frame_salts (frame : Frame) (rest : Bytes) :
    (beU32 (segment (frame.bytes ++ rest) 8 12), beU32 (segment (frame.bytes ++ rest) 12 16)) =
      frame.salts := by
  have first : beU32 (segment (frame.bytes ++ rest) 8 12) = frame.salts.1 := by
    rw [frame.bytes_words, ← append_assoc, append_assoc]
    simp only [append_assoc (wordBytes frame.salts.1)]
    exact beU32_segment (by simp)
  have second : beU32 (segment (frame.bytes ++ rest) 12 16) = frame.salts.2 := by
    rw [frame.bytes_words, ← append_assoc, ← append_assoc, append_assoc]
    simp only [append_assoc (wordBytes frame.salts.2)]
    exact beU32_segment (by simp)
  rw [first, second]

theorem frame_page (frame : Frame) : beU32 (segment frame.bytes 0 4) = frame.page := by
  rw [frame.bytes_words]
  exact @beU32_segment [] _ _ _ rfl

theorem frame_pageCount (frame : Frame) : beU32 (segment frame.bytes 4 8) = frame.pageCount := by
  rw [frame.bytes_words]
  exact beU32_segment (length_wordBytes _)

theorem frame_checksum (frame : Frame) :
    (beU32 (segment frame.bytes 16 20), beU32 (segment frame.bytes 20 24)) = frame.checksum := by
  have first : beU32 (segment frame.bytes 16 20) = frame.checksum.1 := by
    rw [frame.bytes_words, ← append_assoc, ← append_assoc, ← append_assoc]
    exact beU32_segment (by simp)
  have second : beU32 (segment frame.bytes 20 24) = frame.checksum.2 := by
    rw [frame.bytes_words, ← append_assoc, ← append_assoc, ← append_assoc,
      ← append_assoc]
    exact beU32_segment (by simp)
  rw [first, second]

theorem frame_covered (frame : Frame) : frame.bytes.take 8 = frame.words := by
  rw [Frame.bytes, append_assoc, append_assoc, take_left' (length_words frame)]

theorem frame_data (frame : Frame) : frame.bytes.drop frameHeaderSize = frame.data := by
  rw [Frame.bytes]
  exact drop_left' (by simp [length_words, frameHeaderSize])

/-- The state after a page image was taken in. -/
def ParserState.push (s : ParserState) (row : PageImage) : ParserState :=
  s.accept row.page row.pageCount (row.chain s.header.checksumOrder s.checksum)

/-- The frame SQLite writes for a page image. -/
def ParserState.sealed (s : ParserState) (row : PageImage) : Frame :=
  ⟨row.page, row.pageCount, s.header.epoch, row.chain s.header.checksumOrder s.checksum, row.data⟩

/-- A frame that was written behind the ones read so far is taken in. -/
theorem readFrame_sealed {s : ParserState} {row : PageImage} {front rest : Bytes}
    (hfront : front.length = s.nextOffset) (hdata : row.data.length = s.header.pageSize.val)
    (hpage : 0 < row.page) :
    s.readFrame (front ++ ((s.sealed row).bytes ++ rest)) = .inl (s.push row) := by
  have hlength : (s.sealed row).bytes.length = s.frameSize := by
    rw [length_frame, ParserState.frameSize]
    exact congrArg _ hdata
  have hframe : segment (front ++ ((s.sealed row).bytes ++ rest)) s.nextOffset
      (s.nextOffset + s.frameSize) = (s.sealed row).bytes :=
    segment_append hfront (by rw [hlength])
  have hsalts := frame_salts (s.sealed row) []
  rw [append_nil] at hsalts
  have hchain : s.chain (s.sealed row).words (s.sealed row).data = (s.sealed row).checksum := rfl
  have hroom : ¬ (front ++ ((s.sealed row).bytes ++ rest)).length - s.nextOffset < s.frameSize := by
    simp only [length_append, hlength, hfront]
    omega
  unfold ParserState.readFrame
  simp only [hroom, if_false, hframe, hsalts, frame_page, frame_pageCount, frame_checksum,
    frame_covered, frame_data, hchain]
  simp [ParserState.sealed, hpage.ne', ParserState.push]

/-- Nothing is read where the file ends or a frame of another incarnation stands. -/
theorem readFrames_stop {s : ParserState} {front : Bytes} {stale : List Frame}
    (hfront : front.length = s.nextOffset) (hstale : ∀ frame ∈ stale, frame.salts ≠ s.header.epoch) :
    (s.readFrames (front ++ stale.flatMap Frame.bytes)).1 = s := by
  cases stale with
  | nil =>
    rw [ParserState.readFrames]
    simp [hfront]
  | cons frame rest =>
    rw [ParserState.readFrames]
    split
    · split
      · rfl
      · rename_i next hread
        exfalso
        unfold ParserState.readFrame at hread
        dsimp only at hread
        split at hread
        · cases hread
        rename_i hroom
        have hsalts : frame.salts ≠ s.header.epoch := hstale frame (by simp)
        -- The salts stand within the bytes the parser has cut out.
        have hcut : ∀ i j, j ≤ 24 → segment (segment (front ++ (frame :: rest).flatMap Frame.bytes)
            s.nextOffset (s.nextOffset + s.frameSize)) i j =
              segment (frame.bytes ++ rest.flatMap Frame.bytes) i j := by
          intro i j hj
          have hsize : 24 ≤ s.frameSize := Nat.le_add_right _ _
          simp only [segment, ← hfront, drop_left, flatMap_cons, drop_take,
            take_take]
          congr 1
          omega
        rw [hcut 8 12 (by omega), hcut 12 16 (by omega), frame_salts] at hread
        simp [hsalts] at hread
    · rfl

/-- The state after a list of page images. -/
def ParserState.advance (s : ParserState) (rows : List PageImage) : ParserState :=
  rows.foldl ParserState.push s

@[simp] theorem advance_nil (s : ParserState) : s.advance [] = s := rfl

@[simp] theorem advance_cons (s : ParserState) (row : PageImage) (rows : List PageImage) :
    s.advance (row :: rows) = (s.push row).advance rows := rfl

@[simp] theorem header_push (s : ParserState) (row : PageImage) : (s.push row).header = s.header :=
  s.header_accept _ _ _

@[simp] theorem header_advance (s : ParserState) (rows : List PageImage) :
    (s.advance rows).header = s.header := by
  induction rows generalizing s with
  | nil => rfl
  | cons row rows ih => rw [advance_cons, ih, header_push]

theorem frameSize_push (s : ParserState) (row : PageImage) : (s.push row).frameSize = s.frameSize := by
  rw [ParserState.frameSize, header_push, ParserState.frameSize]

theorem nextOffset_advance (s : ParserState) (rows : List PageImage) :
    (s.advance rows).nextOffset = s.nextOffset + rows.length * s.frameSize := by
  induction rows generalizing s with
  | nil => simp
  | cons row rows ih =>
    have hpush : (s.push row).nextOffset = s.nextOffset + s.frameSize := s.nextOffset_accept _ _ _
    rw [advance_cons, ih, frameSize_push, hpush, length_cons]
    ring

/-- A page image that fits a page of the database. -/
def PageImage.Whole (pageSize : U32) (row : PageImage) : Prop :=
  row.data.length = pageSize.val ∧ 0 < row.page

/-- The frames of the current incarnation are taken in, those behind them are not. -/
theorem readFrames_sealRows {rows : List PageImage} {stale : List Frame} (s : ParserState)
    {front : Bytes} (hfront : front.length = s.nextOffset)
    (hrows : ∀ row ∈ rows, row.Whole s.header.pageSize)
    (hstale : ∀ frame ∈ stale, frame.salts ≠ s.header.epoch) :
    (s.readFrames (front ++
      ((sealRows s.header.checksumOrder s.header.epoch s.checksum rows).flatMap Frame.bytes ++
        stale.flatMap Frame.bytes))).1 = s.advance rows := by
  induction rows generalizing s front with
  | nil =>
    rw [sealRows, flatMap_nil, nil_append]
    exact readFrames_stop hfront hstale
  | cons row rows ih =>
    obtain ⟨hdata, hpage⟩ := hrows row (by simp)
    have hchecksum : (s.push row).checksum = row.chain s.header.checksumOrder s.checksum := by
      unfold ParserState.push ParserState.accept
      dsimp only
      split <;> rfl
    have hread := @readFrame_sealed s row front
      ((sealRows s.header.checksumOrder s.header.epoch (s.push row).checksum rows).flatMap
        Frame.bytes ++ stale.flatMap Frame.bytes) hfront hdata hpage
    have hmore : s.nextOffset < (front ++ ((s.sealed row).bytes ++
        ((sealRows s.header.checksumOrder s.header.epoch (s.push row).checksum rows).flatMap
          Frame.bytes ++ stale.flatMap Frame.bytes))).length := by
      simp only [length_append, length_frame, hfront, frameHeaderSize]
      omega
    have hnext := @ih (s.push row) (front ++ (s.sealed row).bytes)
      (by
        rw [length_append, hfront, length_frame]
        exact (congrArg (fun n => s.nextOffset + (frameHeaderSize + n)) hdata).trans
          (s.nextOffset_accept _ _ _).symm)
      (fun other hother => by
        rw [header_push]
        exact hrows other (mem_cons_of_mem _ hother))
      (by simpa using hstale)
    rw [header_push, append_assoc] at hnext
    have hsplit : (sealRows s.header.checksumOrder s.header.epoch s.checksum (row :: rows)).flatMap
        Frame.bytes = (s.sealed row).bytes ++
          (sealRows s.header.checksumOrder s.header.epoch (s.push row).checksum rows).flatMap
            Frame.bytes := by
      rw [hchecksum]
      rfl
    rw [hsplit, append_assoc, ParserState.readFrames, if_pos hmore]
    split
    · rename_i tail htail
      rw [hread] at htail
      cases htail
    · rename_i next hinl
      rw [hread] at hinl
      cases hinl
      exact hnext

/-! ## Frames in a row -/

theorem sealRows_append (order : ChecksumOrder) (first second : List PageImage) (s : ParserState)
    (horder : s.header.checksumOrder = order) :
    sealRows order s.header.epoch s.checksum (first ++ second) =
      sealRows order s.header.epoch s.checksum first ++
        sealRows order s.header.epoch (s.advance first).checksum second := by
  induction first generalizing s with
  | nil => rfl
  | cons row rest ih =>
    have hchecksum : (s.push row).checksum = row.chain order s.checksum := by
      rw [← horder]
      unfold ParserState.push ParserState.accept
      dsimp only
      split <;> rfl
    have hrest := ih (s.push row) (by rw [header_push, horder])
    rw [header_push, hchecksum] at hrest
    simp only [cons_append, sealRows, hrest, advance_cons]

theorem length_flatMap_sealRows {order : ChecksumOrder} {salts : WalEpoch} {pageSize : U32}
    {rows : List PageImage} (hrows : ∀ row ∈ rows, row.Whole pageSize) (checksum : U32 × U32) :
    ((sealRows order salts checksum rows).flatMap Frame.bytes).length =
      rows.length * (frameHeaderSize + pageSize.val) := by
  induction rows generalizing checksum with
  | nil => simp [sealRows]
  | cons row rest ih =>
    have hrest := ih (fun other hother => hrows other (mem_cons_of_mem _ hother))
      (row.chain order checksum)
    have hdata : row.data.length = pageSize.val := (hrows row (by simp)).1
    rw [sealRows, flatMap_cons, length_append, hrest, length_frame, hdata,
      length_cons]
    ring

theorem length_segment {file : Bytes} {offset amount : Nat} (h : offset + amount ≤ file.length) :
    (segment file offset (offset + amount)).length = amount := by
  rw [segment, length_take, length_drop]
  omega

end Homebase.Multilite
