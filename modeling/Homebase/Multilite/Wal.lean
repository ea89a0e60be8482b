import Homebase.Foundation.OrdMap

set_option autoImplicit false

/-!
# Multilite: the WAL parser (`branch/wal.rs`)

SQLite appends frames to the WAL file; Multilite reads the file on its own and
keeps, for the last complete commit, where the latest image of each page stands.

`WalParser.refreshSource` extends a parser to a longer observation of the same
incarnation of the file and starts over on another one.  `WalParser.refresh` reads the
file frame by frame; a read that fails ends it, and the parser keeps the frames it has
taken in by then.

Frames are counted in 32 bits.  The counter wraps around here, as it does in a release build; with
overflow checks the parser panics there.  Offsets are plain numbers.

The page map of a snapshot is grouped into chunks of 256 pages.  The source shares chunks
between snapshots and copies one before it writes to it, so a chunk is a value here.
-/

namespace Homebase.Multilite

open Foundation

/-! ## Words and checksums -/

/-- `be_u32`. -/
def beU32 (bytes : Bytes) : U32 := U32.ofNat (ofBE bytes)

/-- The byte order of the checksum words. -/
inductive ChecksumOrder where
  | little
  | big
  deriving DecidableEq

/-- `checksum_u32`. -/
def checksumU32 : ChecksumOrder → Bytes → U32
  | .little, bytes => beU32 bytes.reverse
  | .big, bytes => beU32 bytes

/-- `checksum_bytes`: eight bytes at a time. -/
def checksumBytes (order : ChecksumOrder) : Bytes → U32 × U32 → U32 × U32
  | a :: b :: c :: d :: e :: f :: g :: h :: rest, (first, second) =>
      let first' := first + checksumU32 order [a, b, c, d] + second
      let second' := second + checksumU32 order [e, f, g, h] + first'
      checksumBytes order rest (first', second')
  | _, checksum => checksum

/-! ## The header -/

/-- `WAL_HEADER_SIZE`. -/
def walHeaderSize : Nat := 32

/-- `FRAME_HEADER_SIZE`. -/
def frameHeaderSize : Nat := 24

/-- `WAL_MAGIC`. -/
def walMagic : U32 := 0x377f0682

/-- `WAL_FORMAT_VERSION`. -/
def walFormatVersion : U32 := 3007000

/-- `WalEpoch`: the salts of one incarnation of the WAL. -/
abbrev WalEpoch : Type := U32 × U32

/-- `WalHeader`. -/
structure WalHeader where
  epoch : WalEpoch
  pageSize : U32
  checksumOrder : ChecksumOrder
  checksum : U32 × U32
  deriving DecidableEq

/-- `WalError`; the I/O errors are left out. -/
inductive WalError where
  | incompleteHeader (bytes : Nat)
  | invalidMagic (magic : U32)
  | unsupportedVersion (version : U32)
  | invalidPageSize (size : U32)
  | invalidHeaderChecksum
  deriving DecidableEq

/-- `bytes[start..stop]`. -/
def segment (bytes : Bytes) (start stop : Nat) : Bytes := (bytes.drop start).take (stop - start)

/-- The page sizes of a database: a power of two from 512 to 65536. -/
def PageSizeValid (size : U32) : Prop :=
  (512 ≤ size.val ∧ size.val ≤ 65536) ∧ size.val.isPowerOfTwo

instance decidableIsPowerOfTwo (n : Nat) : Decidable n.isPowerOfTwo :=
  decidable_of_iff (2 ^ n.log2 = n) <| by
    refine ⟨fun h => ⟨n.log2, h.symm⟩, ?_⟩
    rintro ⟨k, rfl⟩
    rw [Nat.log2_two_pow]

instance (size : U32) : Decidable (PageSizeValid size) := inferInstanceAs (Decidable (_ ∧ _))

/-- The byte order a magic number announces. -/
def ChecksumOrder.ofMagic (magic : U32) : Option ChecksumOrder :=
  if magic = walMagic then some .little
  else if magic = walMagic + 1 then some .big
  else none

/-- `parse_header`. -/
def parseHeader (bytes : Bytes) : Except WalError WalHeader :=
  if bytes.length < walHeaderSize then .error (.incompleteHeader bytes.length)
  else
    match ChecksumOrder.ofMagic (beU32 (segment bytes 0 4)) with
    | none => .error (.invalidMagic (beU32 (segment bytes 0 4)))
    | some order =>
        if beU32 (segment bytes 4 8) ≠ walFormatVersion then
          .error (.unsupportedVersion (beU32 (segment bytes 4 8)))
        else if ¬ PageSizeValid (beU32 (segment bytes 8 12)) then
          .error (.invalidPageSize (beU32 (segment bytes 8 12)))
        else
          let checksum := checksumBytes order (bytes.take 24) (0, 0)
          if checksum ≠ (beU32 (segment bytes 24 28), beU32 (segment bytes 28 32)) then
            .error .invalidHeaderChecksum
          else
            .ok
              { epoch := (beU32 (segment bytes 16 20), beU32 (segment bytes 20 24))
                pageSize := beU32 (segment bytes 8 12)
                checksumOrder := order
                checksum }

/-! ## Page maps -/

/-- `WalFrame`: where the latest committed image of a page stands. -/
structure WalFrame where
  frame : U32
  dataOffset : Nat
  deriving DecidableEq

/-- `PageMap`. -/
abbrev PageMap : Type := OrdMap U32 WalFrame

/-- `PageMap::truncate`. -/
def PageMap.truncate (map : PageMap) (pageCount : U32) : PageMap :=
  OrdMap.retain map fun page _ => decide (page ≤ pageCount)

/-- `WalSnapshot`: the latest complete commit of an observed WAL. -/
structure WalSnapshot where
  epoch : WalEpoch
  maxFrame : U32
  pageCount : U32
  pageSize : U32
  pageMap : PageMap

/-! ## The parser -/

/-- `WalTail`: what follows the last valid frame. -/
inductive WalTail where
  | complete
  | incomplete (bytes : Nat)
  | invalidSalt (frame : U32)
  | invalidChecksum (frame : U32)
  | invalidPageNumber (frame : U32)
  deriving DecidableEq

/-- `ParserState`. -/
structure ParserState where
  header : WalHeader
  nextFrame : U32
  nextOffset : Nat
  checksum : U32 × U32
  workingMap : PageMap
  committed : Option WalSnapshot

/-- `WalParser`. -/
abbrev WalParser : Type := Option ParserState

/-- The state of a parser that has read a header and no frame. -/
def ParserState.start (header : WalHeader) : ParserState where
  header := header
  nextFrame := 1
  nextOffset := walHeaderSize
  checksum := header.checksum
  workingMap := OrdMap.empty
  committed := none

/-- The bytes of a frame. -/
def ParserState.frameSize (s : ParserState) : Nat := frameHeaderSize + s.header.pageSize.val

/-- The checksum of the next frame, over the first two words and the page. -/
def ParserState.chain (s : ParserState) (words page : Bytes) : U32 × U32 :=
  checksumBytes s.header.checksumOrder page
    (checksumBytes s.header.checksumOrder words s.checksum)

/-- A valid frame is taken in; one with a page count completes a commit. -/
def ParserState.accept (s : ParserState) (page pageCount : U32) (checksum : U32 × U32) :
    ParserState :=
  let workingMap := s.workingMap.insert page ⟨s.nextFrame, s.nextOffset + frameHeaderSize⟩
  let read := { s with
    workingMap, checksum, nextFrame := s.nextFrame + 1, nextOffset := s.nextOffset + s.frameSize }
  if pageCount = 0 then read
  else
    let truncated := PageMap.truncate workingMap pageCount
    { read with
      workingMap := truncated
      committed := some
        { epoch := s.header.epoch, maxFrame := s.nextFrame, pageCount,
          pageSize := s.header.pageSize, pageMap := truncated } }

/-- One turn of the loop of `refresh_source`: the next state, or why it stops. -/
def ParserState.readFrame (s : ParserState) (file : Bytes) : ParserState ⊕ WalTail :=
  let remaining := file.length - s.nextOffset
  if remaining < s.frameSize then .inr (.incomplete remaining)
  else
    let frame := segment file s.nextOffset (s.nextOffset + s.frameSize)
    let page := beU32 (segment frame 0 4)
    let pageCount := beU32 (segment frame 4 8)
    if (beU32 (segment frame 8 12), beU32 (segment frame 12 16)) ≠ s.header.epoch then
      .inr (.invalidSalt s.nextFrame)
    else if page = 0 then .inr (.invalidPageNumber s.nextFrame)
    else
      let checksum := s.chain (frame.take 8) (frame.drop frameHeaderSize)
      if checksum ≠ (beU32 (segment frame 16 20), beU32 (segment frame 20 24)) then
        .inr (.invalidChecksum s.nextFrame)
      else .inl (s.accept page pageCount checksum)

@[simp] theorem ParserState.header_accept (s : ParserState) (page pageCount : U32)
    (checksum : U32 × U32) : (s.accept page pageCount checksum).header = s.header := by
  unfold accept
  dsimp only
  split <;> rfl

@[simp] theorem ParserState.nextOffset_accept (s : ParserState) (page pageCount : U32)
    (checksum : U32 × U32) :
    (s.accept page pageCount checksum).nextOffset = s.nextOffset + s.frameSize := by
  unfold accept
  dsimp only
  split <;> rfl

theorem ParserState.readFrame_advances {s next : ParserState} {file : Bytes}
    (h : s.readFrame file = .inl next) : next.nextOffset = s.nextOffset + s.frameSize := by
  unfold readFrame at h
  dsimp only at h
  split at h
  · cases h
  split at h
  · cases h
  split at h
  · cases h
  split at h
  · cases h
  cases h
  exact s.nextOffset_accept _ _ _

/-- The loop of `refresh_source`. -/
def ParserState.readFrames (s : ParserState) (file : Bytes) : ParserState × WalTail :=
  if s.nextOffset < file.length then
    match _h : s.readFrame file with
    | .inr tail => (s, tail)
    | .inl next => next.readFrames file
  else (s, .complete)
termination_by file.length - s.nextOffset
decreasing_by
  rw [ParserState.readFrame_advances _h, ParserState.frameSize, frameHeaderSize]
  omega

/-- `WalParse`. -/
structure WalParse where
  snapshot : Option WalSnapshot
  tail : WalTail
  validBytes : Nat

/-- The state from which an observation of `length` bytes is read. -/
def WalParser.resume (parser : WalParser) (header : WalHeader) (length : Nat) : ParserState :=
  match parser with
  | none => .start header
  | some state =>
      if state.header ≠ header ∨ length < state.nextOffset then .start header else state

/-- `WalParser::refresh_source`. -/
def WalParser.refreshSource (parser : WalParser) (file : Bytes) :
    Except WalError (WalParser × WalParse) :=
  if file.length < walHeaderSize then .error (.incompleteHeader file.length)
  else do
    let header ← parseHeader (file.take walHeaderSize)
    let (state, tail) := (parser.resume header file.length).readFrames file
    pure (some state, ⟨state.committed, tail, state.nextOffset⟩)

/-! ## Page maps in chunks -/

/-- `PAGE_CHUNK_LEN`. -/
def pageChunkLen : Nat := 256

/-- `PageChunk`. -/
abbrev PageChunk : Type := Fin pageChunkLen → Option WalFrame

/-- `PageMap`. -/
abbrev PageChunks : Type := OrdMap U32 PageChunk

/-- `page_location`. -/
def pageLocation (page : U32) : U32 × Fin pageChunkLen :=
  (⟨page.val / pageChunkLen, Nat.lt_of_le_of_lt (Nat.div_le_self _ _) page.isLt⟩,
    ⟨page.val % pageChunkLen, Nat.mod_lt _ (by decide)⟩)

/-- The page at an offset of a chunk, `(chunk << PAGE_CHUNK_BITS) | offset`. -/
def pageOf (chunk : U32) (offset : Fin pageChunkLen) : U32 :=
  U32.ofNat (chunk.val * pageChunkLen + offset.val)

namespace PageChunks

/-- `PageMap::get`. -/
def page (chunks : PageChunks) (page : U32) : Option WalFrame :=
  (chunks.get (pageLocation page).1).bind fun chunk => chunk (pageLocation page).2

/-- `PageMap::insert`. -/
def insertPage (chunks : PageChunks) (page : U32) (frame : WalFrame) : PageChunks :=
  let chunk := (chunks.get (pageLocation page).1).getD fun _ => none
  chunks.insert (pageLocation page).1 (Function.update chunk (pageLocation page).2 (some frame))

/-- `PageMap::truncate`. -/
def truncate (chunks : PageChunks) (pageCount : U32) : PageChunks :=
  let last := pageLocation pageCount
  let kept := chunks.retain fun chunk _ => decide (chunk ≤ last.1)
  match kept.get last.1 with
  | none => kept
  | some chunk =>
    kept.insert last.1 fun offset => if last.2 < offset then none else chunk offset

/-- `PageMap::iter`. -/
def iter (chunks : PageChunks) : List (U32 × WalFrame) :=
  chunks.entries.flatMap fun entry =>
    (List.finRange pageChunkLen).filterMap fun offset =>
      (entry.2 offset).map fun frame => (pageOf entry.1 offset, frame)

end PageChunks

/-! ## Reads that fail -/

/-- The loop of `refresh_source` when only so many frames can be read; no tail is returned when
a read fails. -/
def ParserState.readSome : Nat → ParserState → Bytes → ParserState × Option WalTail
  | reads, s, file =>
    if s.nextOffset < file.length then
      if file.length - s.nextOffset < s.frameSize then
        (s, some (.incomplete (file.length - s.nextOffset)))
      else
        match reads with
        | 0 => (s, none)
        | reads + 1 =>
          match s.readFrame file with
          | .inr tail => (s, some tail)
          | .inl next => readSome reads next file
    else (s, some .complete)

/-- An observation of the WAL file: its contents, and how many reads succeed before one fails,
if one does. -/
structure Observation where
  file : Bytes
  reads : Option Nat
  deriving DecidableEq

/-- `refresh_source` on an observation: the parser it leaves behind, and the result, unless a
read failed. -/
def WalParser.refresh (parser : WalParser) (seen : Observation) :
    WalParser × Option (Except WalError (Option WalSnapshot)) :=
  match seen.reads with
  | none =>
    match parser.refreshSource seen.file with
    | .ok (next, parse) => (next, some (.ok parse.snapshot))
    | .error error => (parser, some (.error error))
  | some 0 => (parser, none)
  | some (reads + 1) =>
    if seen.file.length < walHeaderSize then
      (parser, some (.error (.incompleteHeader seen.file.length)))
    else
      match parseHeader (seen.file.take walHeaderSize) with
      | .error error => (parser, some (.error error))
      | .ok header =>
        let (state, tail) := (parser.resume header seen.file.length).readSome reads seen.file
        (some state, tail.map fun _ => .ok state.committed)

/-- `WalParser::parse`, as far as the snapshot is concerned. -/
def WalParser.parse (file : Bytes) : Except WalError (Option WalSnapshot) :=
  (WalParser.refreshSource none file).map fun result => result.2.snapshot

end Homebase.Multilite
