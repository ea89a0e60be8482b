import Homebase.Multilite.Sqlite

set_option autoImplicit false

/-!
# Multilite: writable branch images (`branch/mod.rs`)

A branch reads a pinned image of the database and writes whole pages into an overlay.  Pages of
the overlay are kept in memory up to a limit and then spilled to a temporary file.

Sources and the temporary file are byte strings.  Of the calls to the temporary file those that
spill pages may fail, at any byte; the others succeed.
-/

namespace Homebase.Multilite

open Foundation

/-! ## The pinned image -/

/-- `SqliteSnapshot`. -/
structure SqliteSnapshot where
  wal : Option WalSnapshot
  pageCount : Nat
  pageSize : U32

/-- `SqliteSnapshot::frame_for`. -/
def SqliteSnapshot.frameFor (snapshot : SqliteSnapshot) (page : U32) : Option WalFrame :=
  snapshot.wal.bind fun wal => wal.pageMap.get page

/-- The part of `bytes` that a file has at an offset (`read_exact_at`). -/
def readExactAt (file : Bytes) (offset amount : Nat) : Bytes := segment file offset (offset + amount)

/-- `patch_rollback_header`: the branch sees a rollback-mode database. -/
def patchRollbackHeader (offset : Nat) (bytes : Bytes) : Bytes :=
  let patch (bytes : Bytes) (position : Nat) :=
    if offset ≤ position then bytes.set (position - offset) 1 else bytes
  patch (patch bytes 18) 19

/-- `destination.fill(0)`, then the bytes that were copied. -/
def padTo (length : Nat) (bytes : Bytes) : Bytes :=
  bytes ++ List.replicate (length - bytes.length) 0

/-- `SnapshotReader`, with the contents of its sources. -/
structure SnapshotReader where
  base : Bytes
  wal : Bytes
  snapshot : SqliteSnapshot
  pageSize_valid : PageSizeValid snapshot.pageSize
  pageCount_lt : snapshot.pageCount < 2 ^ 32

namespace SnapshotReader

def pageSize (reader : SnapshotReader) : Nat := reader.snapshot.pageSize.val

/-- `logical_size`. -/
def logicalSize (reader : SnapshotReader) : Nat := reader.snapshot.pageCount * reader.pageSize

/-- Where the bytes of a page are. -/
def source (reader : SnapshotReader) (page : U32) (withinPage : Nat) : Bytes × Nat :=
  match reader.snapshot.frameFor page with
  | some frame => (reader.wal, frame.dataOffset + withinPage)
  | none => (reader.base, (page.val - 1) * reader.pageSize + withinPage)

/-- The loop of `read_at`; `none` is an I/O error. -/
def readPages (reader : SnapshotReader) (offset readable : Nat) :
    Nat → Bytes → Option (Bytes × Bool)
  | 0, copied => some (copied, true)
  | fuel + 1, copied =>
    if copied.length < readable then
      let position := offset + copied.length
      match U32.tryFrom (position / reader.pageSize + 1) with
      | none => none
      | some page =>
        let withinPage := position % reader.pageSize
        let amount := min (reader.pageSize - withinPage) (readable - copied.length)
        let (file, start) := reader.source page withinPage
        let bytes := readExactAt file start amount
        if bytes.length = amount then
          reader.readPages offset readable fuel (copied ++ bytes)
        else some (copied ++ bytes, false)
    else some (copied, true)

/-- `SnapshotReader::read_at`: the destination, and whether all of it was present.  Every turn
of the loop copies a byte or more. -/
def readAt (reader : SnapshotReader) (offset length : Nat) : Option (Bytes × Bool) :=
  let readable := min (reader.logicalSize - offset) length
  (reader.readPages offset readable readable []).map fun (copied, found) =>
    (patchRollbackHeader offset (padTo length copied), found && decide (readable = length))

end SnapshotReader

/-! ## The overlay -/

/-- `OverlayPage`. -/
inductive OverlayPage where
  | memory (bytes : Bytes)
  | spilled (offset : Nat)
  deriving DecidableEq

/-- The bytes of a page in memory. -/
def OverlayPage.inMemory : OverlayPage → Option Bytes
  | .memory bytes => some bytes
  | .spilled _ => none

/-- `SpillFile`. -/
structure SpillFile where
  file : Bytes
  nextOffset : Nat
  deriving DecidableEq

/-- `PageOverlay`. -/
structure PageOverlay where
  pageSize : Nat
  logicalSize : Nat
  snapshotFallbackSize : Nat
  memoryLimit : Nat
  memoryBytes : Nat
  pages : OrdMap U32 OverlayPage
  spill : Option SpillFile
  deriving DecidableEq

/-- `write_all_at`: a gap in front of the offset is filled with zeroes. -/
def writeAllAt (file : Bytes) (offset : Nat) (source : Bytes) : Bytes :=
  (padTo offset file).take offset ++ source ++ file.drop (offset + source.length)

/-- Which step of spilling fails. -/
inductive SpillFault where
  /-- the temporary file cannot be created -/
  | create
  /-- so many pages are written, and of the next one so many bytes -/
  | write (pages bytes : Nat)
  deriving DecidableEq

/-- What `write_at` returns. -/
inductive WriteAnswer where
  | written
  | overflow
  | pageOverflow
  | readFailed
  | spillFailed
  deriving DecidableEq

namespace PageOverlay

/-- `PageOverlay::new`, for the image of a reader (`BranchImage::writable`). -/
def new (reader : SnapshotReader) (memoryLimit : Nat) : PageOverlay where
  pageSize := reader.pageSize
  logicalSize := reader.logicalSize
  snapshotFallbackSize := reader.logicalSize
  memoryLimit := memoryLimit
  memoryBytes := 0
  pages := .empty
  spill := none

/-- `page_number`. -/
def pageNumber (overlay : PageOverlay) (position : Nat) : Option U32 :=
  U32.tryFrom (position / overlay.pageSize + 1)

/-- The contents of the temporary file. -/
def spillBytes (overlay : PageOverlay) : Bytes :=
  match overlay.spill with
  | some spill => spill.file
  | none => []

/-! ### Reading -/

/-- One turn of the loop of `read_at`: the bytes of a page, and whether they were there;
`none` is an I/O error. -/
def readPage (overlay : PageOverlay) (reader : SnapshotReader) (page : U32)
    (within amount : Nat) : Option (Bytes × Bool) :=
  match overlay.pages.get page with
  | some (.memory bytes) => some (segment bytes within (within + amount), true)
  | some (.spilled offset) =>
    let bytes := readExactAt overlay.spillBytes (offset + within) amount
    some (bytes, decide (bytes.length = amount))
  | none =>
    let sourceOffset := (page.val - 1) * overlay.pageSize + within
    if overlay.snapshotFallbackSize ≤ sourceOffset then some (List.replicate amount 0, true)
    else
      match reader.readAt sourceOffset amount with
      | none => none
      | some (bytes, true) => some (bytes, true)
      | some (_, false) => some (List.replicate amount 0, true)

/-- The loop of `read_at`. -/
def readPages (overlay : PageOverlay) (reader : SnapshotReader) (offset readable : Nat) :
    Nat → Bytes → Option (Bytes × Bool)
  | 0, copied => some (copied, true)
  | fuel + 1, copied =>
    if copied.length < readable then
      let position := offset + copied.length
      match overlay.pageNumber position with
      | none => none
      | some page =>
        let within := position % overlay.pageSize
        let amount := min (overlay.pageSize - within) (readable - copied.length)
        match overlay.readPage reader page within amount with
        | none => none
        | some (bytes, true) => overlay.readPages reader offset readable fuel (copied ++ bytes)
        | some (bytes, false) => some (copied ++ bytes, false)
    else some (copied, true)

/-- `PageOverlay::read_at`: the destination, and whether all of it was present. -/
def readAt (overlay : PageOverlay) (reader : SnapshotReader) (offset length : Nat) :
    Option (Bytes × Bool) :=
  let readable := min (overlay.logicalSize - offset) length
  (overlay.readPages reader offset readable readable []).map fun (copied, found) =>
    if found then
      (patchRollbackHeader offset (padTo length copied), decide (readable = length))
    else (padTo length copied, false)

/-! ### Writing -/

/-- A page is brought into the overlay. -/
def loadPage (overlay : PageOverlay) (reader : SnapshotReader) (page : U32) :
    Option PageOverlay :=
  if overlay.pages.contains page then some overlay
  else
    let pageOffset := (page.val - 1) * overlay.pageSize
    let bytes :=
      if pageOffset < overlay.snapshotFallbackSize then
        (reader.readAt pageOffset overlay.pageSize).map Prod.fst
      else some (List.replicate overlay.pageSize 0)
    bytes.map fun bytes =>
      { overlay with
        memoryBytes := overlay.memoryBytes + bytes.length
        pages := overlay.pages.insert page (.memory bytes) }

/-- `write_page_slice`; `none` is an I/O error. -/
def writePageSlice (overlay : PageOverlay) (reader : SnapshotReader) (page : U32)
    (offset : Nat) (source : Bytes) : Option PageOverlay :=
  (overlay.loadPage reader page).map fun overlay =>
    match overlay.pages.get page with
    | some (.memory bytes) =>
      { overlay with
        pages := overlay.pages.insert page (.memory (writeAllAt bytes offset source)) }
    | some (.spilled spillOffset) =>
      { overlay with
        spill := overlay.spill.map fun spill =>
          { spill with file := writeAllAt spill.file (spillOffset + offset) source } }
    | none => overlay

/-- The loop of `write_at`: what is left behind, and what the loop failed with, if it did. -/
def writePages (reader : SnapshotReader) (offset : Nat) (source : Bytes) :
    Nat → Nat → PageOverlay → PageOverlay × Option WriteAnswer
  | 0, _, overlay => (overlay, none)
  | fuel + 1, copied, overlay =>
    if copied < source.length then
      let position := offset + copied
      match overlay.pageNumber position with
      | none => (overlay, some .pageOverflow)
      | some page =>
        let within := position % overlay.pageSize
        let amount := min (overlay.pageSize - within) (source.length - copied)
        match overlay.writePageSlice reader page within (segment source copied (copied + amount)) with
        | none => (overlay, some .readFailed)
        | some overlay => writePages reader offset source fuel (copied + amount) overlay
    else (overlay, none)

/-- The pages that are in memory, in the order of their numbers. -/
def memoryPages (pages : OrdMap U32 OverlayPage) : List (U32 × Bytes) :=
  pages.entries.filterMap fun entry => entry.2.inMemory.map fun bytes => (entry.1, bytes)

/-- The loop of `spill_if_needed`: the file, where it ends, and where each page went. -/
def spillPages : Bytes → Nat → List (U32 × Bytes) → Bytes × Nat × List (U32 × Nat)
  | file, next, [] => (file, next, [])
  | file, next, (page, bytes) :: rest =>
    let (file, final, replacements) :=
      spillPages (writeAllAt file next bytes) (next + bytes.length) rest
    (file, final, (page, next) :: replacements)

/-- The file after a page could not be written. -/
def tornFile (file : Bytes) (next : Nat) (pages : List (U32 × Bytes)) (count bytes : Nat) : Bytes :=
  let (file, next, _) := spillPages file next (pages.take count)
  match pages[count]? with
  | none => file
  | some (_, page) => writeAllAt file next (page.take bytes)

/-- `spill_if_needed`. -/
def spillIfNeeded (overlay : PageOverlay) (fault : Option SpillFault) : PageOverlay × Bool :=
  if overlay.memoryBytes ≤ overlay.memoryLimit then (overlay, true)
  else if overlay.spill.isNone ∧ fault = some .create then (overlay, false)
  else
    let spill := overlay.spill.getD ⟨[], 0⟩
    let pages := memoryPages overlay.pages
    let finish :=
      let (file, final, replacements) := spillPages spill.file spill.nextOffset pages
      ({ overlay with
          pages := replacements.foldl (fun map entry => map.insert entry.1 (.spilled entry.2))
            overlay.pages
          spill := some ⟨file, final⟩
          memoryBytes := overlay.memoryBytes - (pages.map fun entry => entry.2.length).sum }, true)
    match fault with
    | some (.write count bytes) =>
      if count < pages.length then
        ({ overlay with
            spill := some ⟨tornFile spill.file spill.nextOffset pages count bytes,
              spill.nextOffset⟩ }, false)
      else finish
    | _ => finish

/-- `PageOverlay::write_at`. -/
def writeAt (overlay : PageOverlay) (reader : SnapshotReader) (offset : Nat) (source : Bytes)
    (fault : Option SpillFault) : PageOverlay × WriteAnswer :=
  if 2 ^ 64 ≤ offset + source.length then (overlay, .overflow)
  else
    match writePages reader offset source source.length 0 overlay with
    | (overlay, some answer) => (overlay, answer)
    | (overlay, none) =>
      let extended :=
        { overlay with logicalSize := max overlay.logicalSize (offset + source.length) }
      let (overlay, spilled) := extended.spillIfNeeded fault
      (overlay, if spilled then .written else .spillFailed)

/-- `PageOverlay::truncate`; `none` when the size is refused. -/
def truncate (overlay : PageOverlay) (size : Nat) : Option PageOverlay :=
  if size % overlay.pageSize ≠ 0 then none
  else
    (U32.tryFrom (size / overlay.pageSize + 1)).map fun firstRemoved =>
      let removed := (memoryPages overlay.pages).filter fun entry => decide (firstRemoved ≤ entry.1)
      { overlay with
        pages := overlay.pages.retain fun page _ => decide (page < firstRemoved)
        memoryBytes := overlay.memoryBytes - removed.length * overlay.pageSize
        logicalSize := size
        snapshotFallbackSize := min overlay.snapshotFallbackSize size }

end PageOverlay

/-- A call that changes a branch image. -/
inductive BranchCall where
  | write (offset : Nat) (source : Bytes) (fault : Option SpillFault)
  | truncate (size : Nat)
  deriving DecidableEq

/-- What a call leaves behind. -/
def PageOverlay.call (reader : SnapshotReader) (overlay : PageOverlay) : BranchCall → PageOverlay
  | .write offset source fault => (overlay.writeAt reader offset source fault).1
  | .truncate size => (overlay.truncate size).getD overlay

end Homebase.Multilite
