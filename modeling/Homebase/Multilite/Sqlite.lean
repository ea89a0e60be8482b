import Homebase.Multilite.Wal

set_option autoImplicit false

/-!
# Multilite: SQLite's WAL file

The file as SQLite writes it: a header, the frames of the commits since it was last
started, each with the checksum carried on, and what an earlier incarnation has left
behind them.
-/

namespace Homebase.Multilite

open Foundation

/-! ## The WAL file -/

/-- One frame, as SQLite writes it. -/
structure Frame where
  page : U32
  /-- The size of the database in pages on the last frame of a commit, zero on others. -/
  pageCount : U32
  salts : WalEpoch
  checksum : U32 × U32
  data : Bytes
  deriving DecidableEq

/-- The fields of the WAL header. -/
structure Origin where
  order : ChecksumOrder
  pageSize : U32
  /-- The checkpoint sequence number. -/
  sequence : U32
  salts : WalEpoch
  deriving DecidableEq

/-- A big-endian word. -/
def wordBytes (word : U32) : Bytes := toBE 4 word.val

/-- The bytes of two words. -/
def pairBytes (words : U32 × U32) : Bytes := wordBytes words.1 ++ wordBytes words.2

/-- The words of a frame that its checksum covers. -/
def Frame.words (frame : Frame) : Bytes := wordBytes frame.page ++ wordBytes frame.pageCount

/-- A frame in the file. -/
def Frame.bytes (frame : Frame) : Bytes :=
  frame.words ++ pairBytes frame.salts ++ pairBytes frame.checksum ++ frame.data

/-- The magic number that announces a byte order. -/
def ChecksumOrder.magic : ChecksumOrder → U32
  | .little => walMagic
  | .big => walMagic + 1

/-- The header up to its checksum. -/
def Origin.fields (origin : Origin) : Bytes :=
  wordBytes origin.order.magic ++ wordBytes walFormatVersion ++ wordBytes origin.pageSize ++
    wordBytes origin.sequence ++ pairBytes origin.salts

/-- The checksum of the header, from which those of the frames continue. -/
def Origin.checksum (origin : Origin) : U32 × U32 :=
  checksumBytes origin.order origin.fields (0, 0)

/-- The header in the file. -/
def Origin.bytes (origin : Origin) : Bytes := origin.fields ++ pairBytes origin.checksum

/-! ## Commits -/

/-- A page image on its way into the WAL. -/
structure PageImage where
  page : U32
  pageCount : U32
  data : Bytes
  deriving DecidableEq

/-- The checksum that a frame carries on. -/
def PageImage.chain (order : ChecksumOrder) (row : PageImage) (checksum : U32 × U32) : U32 × U32 :=
  checksumBytes order row.data
    (checksumBytes order (wordBytes row.page ++ wordBytes row.pageCount) checksum)

/-- The frames of a list of page images, each checksummed after the one before. -/
def sealRows (order : ChecksumOrder) (salts : WalEpoch) : U32 × U32 → List PageImage → List Frame
  | _, [] => []
  | checksum, row :: rest =>
      let next := row.chain order checksum
      ⟨row.page, row.pageCount, salts, next, row.data⟩ :: sealRows order salts next rest

end Homebase.Multilite
