import Homebase.Multilite.Wal

set_option autoImplicit false

/-!
# What a WAL file says

Behind the header of a WAL file stand frames of one size.  A frame is on the chain when it and
all before it carry the salts of the header, a page number, and the checksum that continues the
ones before.  The chain determines the parser: `stateAt` is its state after so many frames, and
it depends on the bytes of those frames only.
-/

namespace Homebase.Multilite

open Foundation List
open OrdMap (get_insert get_retain mem_entries_iff)

namespace WalHeader

variable (header : WalHeader) (file : Bytes)

/-! ## Frames by number -/

/-- The bytes of a frame. -/
def frameSize : Nat := frameHeaderSize + header.pageSize.val

/-- Where a frame starts. -/
def offset (n : Nat) : Nat := walHeaderSize + n * header.frameSize

/-- The bytes of a frame in the file. -/
def frameAt (n : Nat) : Bytes :=
  segment file (header.offset n) (header.offset n + header.frameSize)

def pageAt (n : Nat) : U32 := beU32 (segment (header.frameAt file n) 0 4)

/-- The size of the database after the commit that the frame completes; 0 if it completes none. -/
def countAt (n : Nat) : U32 := beU32 (segment (header.frameAt file n) 4 8)

def saltsAt (n : Nat) : WalEpoch :=
  (beU32 (segment (header.frameAt file n) 8 12), beU32 (segment (header.frameAt file n) 12 16))

def storedAt (n : Nat) : U32 × U32 :=
  (beU32 (segment (header.frameAt file n) 16 20), beU32 (segment (header.frameAt file n) 20 24))

/-- The checksum over the header and the frames before. -/
def checksumAt : Nat → U32 × U32
  | 0 => header.checksum
  | n + 1 =>
    checksumBytes header.checksumOrder ((header.frameAt file n).drop frameHeaderSize)
      (checksumBytes header.checksumOrder ((header.frameAt file n).take 8) (checksumAt n))

/-- Where the image of the frame stands. -/
def placeAt (n : Nat) : WalFrame := ⟨U32.ofNat (n + 1), header.offset n + frameHeaderSize⟩

/-- The frame continues the chain. -/
def ValidAt (n : Nat) : Prop :=
  header.offset n + header.frameSize ≤ file.length ∧ header.saltsAt file n = header.epoch
    ∧ header.pageAt file n ≠ 0 ∧ header.checksumAt file (n + 1) = header.storedAt file n

/-- The first frames are on the chain. -/
def OnChain (n : Nat) : Prop := ∀ i < n, header.ValidAt file i

/-! ## What the chain makes of a page map -/

/-- What a frame does to a page map that is kept in some way. -/
def turnMap {M : Type} (insert : M → U32 → WalFrame → M) (truncate : M → U32 → M) (map : M)
    (n : Nat) : M :=
  let map := insert map (header.pageAt file n) (header.placeAt n)
  if header.countAt file n = 0 then map else truncate map (header.countAt file n)

/-- The page map after so many frames. -/
def mapAt (n : Nat) : PageMap :=
  (List.range n).foldl (header.turnMap file OrdMap.insert PageMap.truncate) OrdMap.empty

/-- The same, in chunks. -/
def chunksAt (n : Nat) : PageChunks :=
  (List.range n).foldl (header.turnMap file PageChunks.insertPage PageChunks.truncate) OrdMap.empty

/-- The last commit within so many frames. -/
def committedAt : Nat → Option WalSnapshot
  | 0 => none
  | n + 1 =>
    if header.countAt file n = 0 then committedAt n
    else some
      { epoch := header.epoch, maxFrame := U32.ofNat (n + 1), pageCount := header.countAt file n,
        pageSize := header.pageSize, pageMap := header.mapAt file (n + 1) }

/-- The parser after so many frames. -/
def stateAt (n : Nat) : ParserState where
  header := header
  nextFrame := U32.ofNat (n + 1)
  nextOffset := header.offset n
  checksum := header.checksumAt file n
  workingMap := header.mapAt file n
  committed := header.committedAt file n

end WalHeader

/-! ## The parser follows the chain -/

section Follows

variable {header : WalHeader} {file : Bytes} {n : Nat}

theorem mapAt_succ (header : WalHeader) (file : Bytes) (n : Nat) :
    header.mapAt file (n + 1) =
      header.turnMap file OrdMap.insert PageMap.truncate (header.mapAt file n) n := by
  rw [WalHeader.mapAt, range_succ, foldl_append]
  rfl

theorem stateAt_zero (header : WalHeader) (file : Bytes) :
    header.stateAt file 0 = .start header := by
  have hone : U32.ofNat 1 = 1 := rfl
  simp [WalHeader.stateAt, ParserState.start, WalHeader.offset, WalHeader.checksumAt,
    WalHeader.mapAt, WalHeader.committedAt, hone]

theorem offset_succ (header : WalHeader) (n : Nat) :
    header.offset (n + 1) = header.offset n + header.frameSize := by
  rw [WalHeader.offset, WalHeader.offset, Nat.succ_mul, Nat.add_assoc]

theorem U32.ofNat_succ (n : Nat) : U32.ofNat n + 1 = U32.ofNat (n + 1) := by
  refine Fin.ext ?_
  change (n % 2 ^ 32 + 1) % 2 ^ 32 = (n + 1) % 2 ^ 32
  omega

theorem accept_stateAt (header : WalHeader) (file : Bytes) (n : Nat) :
    (header.stateAt file n).accept (header.pageAt file n) (header.countAt file n)
      (header.checksumAt file (n + 1)) = header.stateAt file (n + 1) := by
  unfold ParserState.accept
  dsimp only
  by_cases hcount : header.countAt file n = 0
  · rw [if_pos hcount]
    simp only [WalHeader.stateAt, offset_succ, mapAt_succ, WalHeader.turnMap, hcount,
      WalHeader.committedAt, if_true, U32.ofNat_succ]
    rfl
  · rw [if_neg hcount]
    simp only [WalHeader.stateAt, offset_succ, mapAt_succ, WalHeader.turnMap, hcount,
      WalHeader.committedAt, if_false, U32.ofNat_succ]
    rfl

/-- The parser takes in a frame exactly when it continues the chain. -/
theorem readFrame_stateAt (header : WalHeader) (file : Bytes) (n : Nat) :
    (header.ValidAt file n ∧
        (header.stateAt file n).readFrame file = .inl (header.stateAt file (n + 1)))
      ∨ ¬ header.ValidAt file n ∧ ∃ tail, (header.stateAt file n).readFrame file = .inr tail := by
  unfold ParserState.readFrame
  dsimp only
  split
  case isTrue hshort =>
    refine .inr ⟨fun hvalid => ?_, _, rfl⟩
    have hroom := hvalid.1
    have hshort : file.length - header.offset n < header.frameSize := hshort
    have hpos : 0 < header.frameSize := Nat.add_pos_left (by decide) _
    omega
  split
  case isFalse.isTrue hsalts => exact .inr ⟨fun hvalid => hsalts hvalid.2.1, _, rfl⟩
  split
  case isFalse.isFalse.isTrue hpage => exact .inr ⟨fun hvalid => hvalid.2.2.1 hpage, _, rfl⟩
  split
  case isFalse.isFalse.isFalse.isTrue hsum => exact .inr ⟨fun hvalid => hsum hvalid.2.2.2, _, rfl⟩
  case isFalse.isFalse.isFalse.isFalse hroom hsalts hpage hsum =>
    refine .inl ⟨⟨?_, not_not.mp hsalts, hpage, not_not.mp hsum⟩, ?_⟩
    · have hroom : ¬ file.length - header.offset n < header.frameSize := hroom
      have hpos : 0 < header.frameSize := Nat.add_pos_left (by decide) _
      omega
    · exact congrArg Sum.inl (accept_stateAt header file n)

/-- The parser reads on to the end of the chain. -/
theorem readFrames_stateAt (header : WalHeader) (file : Bytes) (n : Nat) :
    ∃ stop, n ≤ stop ∧ (∀ i, n ≤ i → i < stop → header.ValidAt file i)
      ∧ ¬ header.ValidAt file stop
      ∧ ((header.stateAt file n).readFrames file).1 = header.stateAt file stop := by
  induction hleft : file.length - header.offset n using Nat.strong_induction_on generalizing n with
  | _ left ih =>
    subst hleft
    rw [ParserState.readFrames]
    split
    case isTrue hmore =>
      have hpos : 0 < header.frameSize := Nat.add_pos_left (by decide) _
      have hmore : header.offset n < file.length := hmore
      obtain ⟨hvalid, hread⟩ | ⟨hinvalid, tail, hread⟩ := readFrame_stateAt header file n
      · obtain ⟨stop, hle, hchain, hstop, heq⟩ :=
          ih _ (by rw [offset_succ]; omega) (n + 1) rfl
        refine ⟨stop, by omega, fun i hni histop => ?_, hstop, ?_⟩
        · obtain rfl | hlt := Nat.eq_or_lt_of_le hni
          · exact hvalid
          · exact hchain i hlt histop
        · split
          case h_1 tail htail => exact absurd (hread.symm.trans htail) Sum.inl_ne_inr
          case h_2 next hnext =>
            rw [← Sum.inl.inj (hread.symm.trans hnext)]
            exact heq
      · refine ⟨n, le_rfl, fun i hni hin => by omega, hinvalid, ?_⟩
        split
        case h_1 => rfl
        case h_2 next hnext => exact absurd (hread.symm.trans hnext) Sum.inr_ne_inl
    case isFalse hend =>
      refine ⟨n, le_rfl, fun i hni hin => by omega, fun hvalid => hend ?_, rfl⟩
      have hroom := hvalid.1
      have hpos : 0 < header.frameSize := Nat.add_pos_left (by decide) _
      change header.offset n < file.length
      omega

/-- An interrupted parser stands somewhere on the chain. -/
theorem readSome_stateAt (header : WalHeader) (file : Bytes) (n reads : Nat) :
    ∃ stop, n ≤ stop ∧ (∀ i, n ≤ i → i < stop → header.ValidAt file i)
      ∧ ((header.stateAt file n).readSome reads file).1 = header.stateAt file stop
      ∧ (((header.stateAt file n).readSome reads file).2.isSome → ¬ header.ValidAt file stop) := by
  have hpos : 0 < header.frameSize := Nat.add_pos_left (by decide) _
  induction reads generalizing n with
  | zero =>
    refine ⟨n, le_rfl, fun i hni hin => by omega, ?_⟩
    rw [ParserState.readSome]
    split
    · split
      case isTrue hshort =>
        refine ⟨rfl, fun _ hvalid => ?_⟩
        have hroom := hvalid.1
        have hshort : file.length - header.offset n < header.frameSize := hshort
        omega
      case isFalse => exact ⟨rfl, nofun⟩
    case isFalse hend =>
      refine ⟨rfl, fun _ hvalid => hend ?_⟩
      have hroom := hvalid.1
      change header.offset n < file.length
      omega
  | succ reads ih =>
    rw [ParserState.readSome]
    split
    · split
      case isTrue hshort =>
        refine ⟨n, le_rfl, fun i hni hin => by omega, rfl, fun _ hvalid => ?_⟩
        have hroom := hvalid.1
        have hshort : file.length - header.offset n < header.frameSize := hshort
        omega
      case isFalse =>
        obtain ⟨hvalid, hread⟩ | ⟨hinvalid, tail, hread⟩ := readFrame_stateAt header file n
        · obtain ⟨stop, hle, hchain, heq, hstop⟩ := ih (n + 1)
          rw [hread]
          refine ⟨stop, by omega, fun i hni histop => ?_, heq, hstop⟩
          obtain rfl | hlt := Nat.eq_or_lt_of_le hni
          · exact hvalid
          · exact hchain i hlt histop
        · rw [hread]
          exact ⟨n, le_rfl, fun i hni hin => by omega, rfl, fun _ => hinvalid⟩
    case isFalse hend =>
      refine ⟨n, le_rfl, fun i hni hin => by omega, rfl, fun _ hvalid => hend ?_⟩
      have hroom := hvalid.1
      change header.offset n < file.length
      omega

/-- The chain ends in one place. -/
theorem chain_end_unique {stop stop' : Nat} (h : header.OnChain file stop)
    (hend : ¬ header.ValidAt file stop) (h' : header.OnChain file stop')
    (hend' : ¬ header.ValidAt file stop') : stop = stop' := by
  by_contra hne
  obtain hlt | hlt := Nat.lt_or_gt_of_ne hne
  · exact hend (h' stop hlt)
  · exact hend' (h stop' hlt)

end Follows

/-! ## The parser depends on the frames it has read -/

section Agree

variable {header : WalHeader} {file file' : Bytes} {n : Nat}

theorem segment_take {start stop length : Nat} (h : stop ≤ length) :
    segment (file.take length) start stop = segment file start stop := by
  rw [segment, segment, drop_take, take_take]
  congr 1
  omega

theorem frameAt_congr (h : file.take (header.offset n) = file'.take (header.offset n)) {i : Nat}
    (hi : i < n) : header.frameAt file i = header.frameAt file' i := by
  have hle : header.offset i + header.frameSize ≤ header.offset n := by
    rw [← offset_succ]
    exact Nat.add_le_add_left (Nat.mul_le_mul_right _ hi) _
  rw [WalHeader.frameAt, WalHeader.frameAt, ← segment_take hle, h, segment_take hle]

theorem checksumAt_congr (h : ∀ i < n, header.frameAt file i = header.frameAt file' i) :
    header.checksumAt file n = header.checksumAt file' n := by
  induction n with
  | zero => rfl
  | succ n ih =>
    rw [WalHeader.checksumAt, WalHeader.checksumAt, h n (Nat.lt_succ_self n),
      ih fun i hi => h i (Nat.lt_succ_of_lt hi)]

theorem stateAt_congr (h : ∀ i < n, header.frameAt file i = header.frameAt file' i) :
    header.stateAt file n = header.stateAt file' n := by
  induction n with
  | zero => rw [stateAt_zero, stateAt_zero]
  | succ n ih =>
    rw [← accept_stateAt, ← accept_stateAt, ih fun i hi => h i (Nat.lt_succ_of_lt hi),
      checksumAt_congr h, WalHeader.pageAt, WalHeader.pageAt, WalHeader.countAt,
      WalHeader.countAt, h n (Nat.lt_succ_self n)]

/-- A file that still has the frames a parser has read leaves the parser on the chain. -/
theorem onChain_congr (h : file.take (header.offset n) = file'.take (header.offset n))
    (hlength : header.offset n ≤ file'.length) (hchain : header.OnChain file n) :
    header.OnChain file' n := by
  intro i hi
  have hframe := frameAt_congr h hi
  obtain ⟨-, hsalts, hpage, hsum⟩ := hchain i hi
  refine ⟨?_, ?_, ?_, ?_⟩
  · rw [← offset_succ]
    exact le_trans (Nat.add_le_add_left (Nat.mul_le_mul_right _ hi) _) hlength
  · rwa [WalHeader.saltsAt, ← hframe]
  · rwa [WalHeader.pageAt, ← hframe]
  · rw [WalHeader.storedAt, ← hframe, ← checksumAt_congr fun j hj => ?_]
    · exact hsum
    · exact frameAt_congr h (lt_of_le_of_lt (Nat.lt_succ_iff.mp hj) hi)

end Agree

/-! ## The page map of a commit -/

section Pages

variable {header : WalHeader} {file : Bytes} {n : Nat}

/-- The frames that can show a page after so many frames: those that no later commit, nor their
own, has cut off. -/
def WalHeader.showing (header : WalHeader) (file : Bytes) (n : Nat) (page : U32) : Set Nat :=
  {i | i < n ∧ header.pageAt file i = page
    ∧ ∀ j, i ≤ j → j < n → header.countAt file j ≠ 0 → page ≤ header.countAt file j}

theorem get_mapAt_succ (header : WalHeader) (file : Bytes) (n : Nat) (page : U32) :
    (header.mapAt file (n + 1)).get page =
      if header.countAt file n ≠ 0 ∧ ¬ page ≤ header.countAt file n then none
      else if page = header.pageAt file n then some (header.placeAt n)
      else (header.mapAt file n).get page := by
  rw [mapAt_succ, WalHeader.turnMap]
  by_cases hcount : header.countAt file n = 0
  · simp only [hcount, if_true, ne_eq, not_true_eq_false, false_and, if_false]
    exact get_insert _ _ _ _
  · simp only [hcount, if_false, ne_eq, not_false_eq_true, true_and]
    rw [PageMap.truncate, get_retain, get_insert]
    by_cases hle : page ≤ header.countAt file n
    · simp only [hle, not_true_eq_false, if_false, decide_true]
      split
      · rfl
      · cases (header.mapAt file n).get page <;> rfl
    · simp only [hle, not_false_eq_true, if_true, decide_false]
      split
      · rfl
      · cases (header.mapAt file n).get page <;> rfl

/-- The map shows the latest frame of every page that is not cut off. -/
theorem get_mapAt_iff {page : U32} {frame : WalFrame} :
    (header.mapAt file n).get page = some frame ↔
      ∃ i, IsGreatest (header.showing file n page) i ∧ frame = header.placeAt i := by
  induction n generalizing frame with
  | zero =>
    refine iff_of_false nofun ?_
    rintro ⟨i, ⟨⟨hi, -⟩, -⟩, -⟩
    exact absurd hi (Nat.not_lt_zero i)
  | succ n ih =>
    rw [get_mapAt_succ]
    split
    case isTrue hcut =>
      refine iff_of_false nofun ?_
      rintro ⟨i, ⟨⟨hi, -, hkept⟩, -⟩, -⟩
      exact hcut.2 (hkept n (Nat.lt_succ_iff.mp hi) (Nat.lt_succ_self n) hcut.1)
    case isFalse hkeep =>
      have hkeep : header.countAt file n ≠ 0 → page ≤ header.countAt file n :=
        fun hcount => by_contra fun hle => hkeep ⟨hcount, hle⟩
      split
      case isTrue hpage =>
        have hgreatest : IsGreatest (header.showing file (n + 1) page) n := by
          refine ⟨⟨Nat.lt_succ_self n, hpage.symm, fun j hnj hj hcount => ?_⟩, fun i hi => ?_⟩
          · rw [Nat.le_antisymm (Nat.lt_succ_iff.mp hj) hnj] at hcount ⊢
            exact hkeep hcount
          · exact Nat.lt_succ_iff.mp hi.1
        rw [Option.some.injEq]
        constructor
        · rintro rfl
          exact ⟨n, hgreatest, rfl⟩
        · rintro ⟨i, hi, rfl⟩
          rw [hi.unique hgreatest]
      case isFalse hpage =>
        have hsame : header.showing file (n + 1) page = header.showing file n page := by
          ext i
          constructor
          · rintro ⟨hi, hpagei, hkept⟩
            have hne : i ≠ n := fun heq => hpage (heq ▸ hpagei.symm)
            exact ⟨by omega, hpagei, fun j hij hj => hkept j hij (by omega)⟩
          · rintro ⟨hi, hpagei, hkept⟩
            refine ⟨by omega, hpagei, fun j hij hj hcount => ?_⟩
            obtain hlt | rfl := Nat.lt_or_eq_of_le (Nat.lt_succ_iff.mp hj)
            · exact hkept j hij hlt hcount
            · exact hkeep hcount
        rw [ih, hsame]

/-- The last frame among the first `n` that completes a commit. -/
def WalHeader.LastCommit (header : WalHeader) (file : Bytes) (n k : Nat) : Prop :=
  k < n ∧ header.countAt file k ≠ 0 ∧ ∀ i, k < i → i < n → header.countAt file i = 0

theorem committedAt_eq_none_iff :
    header.committedAt file n = none ↔ ∀ i < n, header.countAt file i = 0 := by
  induction n with
  | zero => exact iff_of_true rfl nofun
  | succ n ih =>
    rw [WalHeader.committedAt]
    split
    case isTrue hcount =>
      rw [ih]
      refine ⟨fun h i hi => ?_, fun h i hi => h i (Nat.lt_succ_of_lt hi)⟩
      obtain hlt | rfl := Nat.lt_or_eq_of_le (Nat.lt_succ_iff.mp hi)
      · exact h i hlt
      · exact hcount
    case isFalse hcount => exact iff_of_false nofun fun h => hcount (h n (Nat.lt_succ_self n))

theorem committedAt_eq_some {snapshot : WalSnapshot}
    (h : header.committedAt file n = some snapshot) :
    ∃ k, header.LastCommit file n k
      ∧ snapshot = ⟨header.epoch, U32.ofNat (k + 1), header.countAt file k, header.pageSize,
        header.mapAt file (k + 1)⟩ := by
  induction n with
  | zero => exact absurd h nofun
  | succ n ih =>
    rw [WalHeader.committedAt] at h
    split at h
    case isTrue hcount =>
      obtain ⟨k, ⟨hk, hcommit, hlast⟩, heq⟩ := ih h
      refine ⟨k, ⟨Nat.lt_succ_of_lt hk, hcommit, fun i hki hi => ?_⟩, heq⟩
      obtain hlt | rfl := Nat.lt_or_eq_of_le (Nat.lt_succ_iff.mp hi)
      · exact hlast i hki hlt
      · exact hcount
    case isFalse hcount =>
      exact ⟨n, ⟨Nat.lt_succ_self n, hcount, fun i hni hi => by omega⟩, (Option.some.inj h).symm⟩

end Pages

/-! ## Chunks hold the page map -/

section Chunks

variable {chunks : PageChunks}

theorem pageLocation_injective {page page' : U32} (h : pageLocation page = pageLocation page') :
    page = page' := by
  have hchunk := congrArg (fun location => location.1.val) h
  have hoffset := congrArg (fun location => location.2.val) h
  simp only [pageLocation, pageChunkLen] at hchunk hoffset
  refine Fin.ext ?_
  omega

theorem page_insertPage (chunks : PageChunks) (page other : U32) (frame : WalFrame) :
    (chunks.insertPage page frame).page other =
      if other = page then some frame else chunks.page other := by
  rw [PageChunks.page, PageChunks.insertPage, get_insert]
  by_cases hchunk : (pageLocation other).1 = (pageLocation page).1
  · rw [if_pos hchunk, Option.bind_some, Function.update_apply]
    by_cases hoffset : (pageLocation other).2 = (pageLocation page).2
    · rw [if_pos hoffset, if_pos (pageLocation_injective (Prod.ext hchunk hoffset))]
    · have hne : other ≠ page := by
        rintro rfl
        exact hoffset rfl
      rw [if_neg hoffset, if_neg hne, PageChunks.page, hchunk]
      cases chunks.get (pageLocation page).1 <;> rfl
  · have hne : other ≠ page := by
      rintro rfl
      exact hchunk rfl
    rw [if_neg hchunk, if_neg hne]
    rfl

theorem le_iff_pageLocation {page pageCount : U32} :
    page ≤ pageCount ↔
      (pageLocation page).1 < (pageLocation pageCount).1 ∨
        (pageLocation page).1 = (pageLocation pageCount).1
          ∧ ¬ (pageLocation pageCount).2 < (pageLocation page).2 := by
  have hchunk : (pageLocation page).1 = (pageLocation pageCount).1 ↔
      page.val / 256 = pageCount.val / 256 := Fin.ext_iff
  rw [hchunk]
  change page.val ≤ pageCount.val ↔ page.val / 256 < pageCount.val / 256 ∨
    page.val / 256 = pageCount.val / 256 ∧ ¬ pageCount.val % 256 < page.val % 256
  omega

theorem page_truncate (chunks : PageChunks) (pageCount page : U32) :
    (chunks.truncate pageCount).page page =
      if page ≤ pageCount then chunks.page page else none := by
  have hkept : ∀ chunk, (chunks.retain fun chunk _ =>
      decide (chunk ≤ (pageLocation pageCount).1)).get chunk =
        if chunk ≤ (pageLocation pageCount).1 then chunks.get chunk else none := by
    intro chunk
    rw [get_retain]
    by_cases hle : chunk ≤ (pageLocation pageCount).1
    · simp only [hle, decide_true, if_true]
      cases chunks.get chunk <;> rfl
    · simp only [hle, decide_false, if_false]
      cases chunks.get chunk <;> rfl
  have hlast := hkept (pageLocation pageCount).1
  rw [if_pos le_rfl] at hlast
  have hle := @le_iff_pageLocation page pageCount
  rw [PageChunks.truncate, hlast]
  cases hget : chunks.get (pageLocation pageCount).1 with
  | none =>
    simp only [PageChunks.page, hkept]
    obtain hlt | heq | hgt := lt_trichotomy (pageLocation page).1 (pageLocation pageCount).1
    · rw [if_pos hlt.le, if_pos (hle.mpr (.inl hlt))]
    · rw [heq, if_pos le_rfl, hget]
      split <;> rfl
    · rw [if_neg (not_le.mpr hgt), if_neg fun h => (hle.mp h).elim hgt.not_gt fun h => hgt.ne' h.1]
      rfl
  | some chunk =>
    simp only [PageChunks.page, get_insert, hkept]
    obtain hlt | heq | hgt := lt_trichotomy (pageLocation page).1 (pageLocation pageCount).1
    · rw [if_neg hlt.ne, if_pos hlt.le, if_pos (hle.mpr (.inl hlt))]
    · rw [if_pos heq, heq, hget, Option.bind_some, Option.bind_some]
      dsimp only
      by_cases hcut : (pageLocation pageCount).2 < (pageLocation page).2
      · rw [if_pos hcut, if_neg fun h => (hle.mp h).elim (fun hlt => hlt.ne heq) fun h => h.2 hcut]
      · rw [if_neg hcut, if_pos (hle.mpr (.inr ⟨heq, hcut⟩))]
    · rw [if_neg hgt.ne', if_neg (not_le.mpr hgt),
        if_neg fun h => (hle.mp h).elim hgt.not_gt fun h => hgt.ne' h.1]
      rfl

/-- The chunks hold the same frames as a map. -/
def PageChunks.Holds (chunks : PageChunks) (map : PageMap) : Prop :=
  ∀ page, chunks.page page = map.get page

theorem holds_chunksAt (header : WalHeader) (file : Bytes) (n : Nat) :
    (header.chunksAt file n).Holds (header.mapAt file n) := by
  induction n with
  | zero => exact fun page => rfl
  | succ n ih =>
    intro page
    have hchunks : header.chunksAt file (n + 1) =
        header.turnMap file PageChunks.insertPage PageChunks.truncate
          (header.chunksAt file n) n := by
      rw [WalHeader.chunksAt, range_succ, foldl_append]
      rfl
    rw [get_mapAt_succ, hchunks, WalHeader.turnMap]
    by_cases hcount : header.countAt file n = 0
    · simp only [hcount, if_true, ne_eq, not_true_eq_false, false_and, if_false]
      rw [page_insertPage, ih page]
    · simp only [hcount, if_false, ne_eq, not_false_eq_true, true_and]
      rw [page_truncate, page_insertPage, ih page]
      split <;> rfl

theorem val_pageOf {chunk : U32} (h : chunk.val < 2 ^ 24) (offset : Fin pageChunkLen) :
    (pageOf chunk offset).val = chunk.val * 256 + offset.val := by
  have hoffset : offset.val < 256 := offset.isLt
  have hlt : chunk.val * 256 + offset.val < 2 ^ 32 := by omega
  exact U32.val_ofNat hlt

theorem pageLocation_pageOf {chunk : U32} (h : chunk.val < 2 ^ 24)
    (offset : Fin pageChunkLen) : pageLocation (pageOf chunk offset) = (chunk, offset) := by
  have hoffset : offset.val < 256 := offset.isLt
  have hval := val_pageOf h offset
  refine Prod.ext (Fin.ext ?_) (Fin.ext ?_)
  · change (pageOf chunk offset).val / 256 = chunk.val
    omega
  · change (pageOf chunk offset).val % 256 = offset.val
    omega

/-- Chunks are numbered by the pages of the file format. -/
def PageChunks.Numbered (chunks : PageChunks) : Prop :=
  ∀ chunk frames, chunks.get chunk = some frames → chunk.val < 2 ^ 24

theorem pageLocation_lt (page : U32) : (pageLocation page).1.val < 2 ^ 24 := by
  have hlt := page.isLt
  change page.val / 256 < 2 ^ 24
  omega

theorem PageChunks.Numbered.insert (h : chunks.Numbered) (page : U32) (frames : PageChunk) :
    PageChunks.Numbered (chunks.insert (pageLocation page).1 frames) := by
  intro chunk found hfound
  rw [get_insert] at hfound
  split at hfound
  case isTrue heq => exact heq ▸ pageLocation_lt page
  case isFalse => exact h chunk found hfound

theorem PageChunks.Numbered.truncate (h : chunks.Numbered) (pageCount : U32) :
    (chunks.truncate pageCount).Numbered := by
  have hkept : PageChunks.Numbered
      (chunks.retain fun chunk _ => decide (chunk ≤ (pageLocation pageCount).1)) := by
    intro chunk found hfound
    rw [get_retain] at hfound
    cases hget : chunks.get chunk with
    | none =>
      rw [hget] at hfound
      exact absurd hfound nofun
    | some frames => exact h chunk frames hget
  rw [PageChunks.truncate]
  split
  · exact hkept
  · exact hkept.insert _ _

theorem numbered_chunksAt (header : WalHeader) (file : Bytes) (n : Nat) :
    (header.chunksAt file n).Numbered := by
  rw [WalHeader.chunksAt]
  refine foldlRecOn (List.range n) _ (motive := PageChunks.Numbered) nofun ?_
  intro chunks hchunks i _
  rw [WalHeader.turnMap]
  split
  · exact hchunks.insert _ _
  · exact (hchunks.insert _ _).truncate _

/-- `iter` lists the map. -/
theorem iter_eq {map : PageMap} (hnumbered : chunks.Numbered) (hholds : chunks.Holds map) :
    chunks.iter = map.entries := by
  have hnumber : ∀ entry ∈ chunks.entries, entry.1.val < 2 ^ 24 := fun entry hentry =>
    hnumbered entry.1 entry.2 (mem_entries_iff.mp hentry)
  refine eq_of_pairwise_of_mem_iff (r := fun a b => a.1 < b.1) (fun _ _ hlt => lt_asymm hlt) ?_
    map.sorted fun entry => ?_
  · rw [PageChunks.iter, pairwise_flatMap]
    constructor
    · intro entry hentry
      refine pairwise_filterMap.mpr ((pairwise_lt_finRange _).imp ?_)
      intro offset offset' hlt a ha b hb
      obtain ⟨_, -, rfl⟩ := Option.map_eq_some_iff.mp ha
      obtain ⟨_, -, rfl⟩ := Option.map_eq_some_iff.mp hb
      have hlt : offset.val < offset'.val := hlt
      change (pageOf entry.1 offset).val < (pageOf entry.1 offset').val
      rw [val_pageOf (hnumber entry hentry), val_pageOf (hnumber entry hentry)]
      omega
    · refine chunks.sorted.imp_of_mem ?_
      intro entry entry' hentry hentry' hlt a ha b hb
      obtain ⟨offset, -, ha⟩ := mem_filterMap.mp ha
      obtain ⟨offset', -, hb⟩ := mem_filterMap.mp hb
      obtain ⟨_, -, rfl⟩ := Option.map_eq_some_iff.mp ha
      obtain ⟨_, -, rfl⟩ := Option.map_eq_some_iff.mp hb
      have hlt : entry.1.val < entry'.1.val := hlt
      have hoffset : offset.val < 256 := offset.isLt
      change (pageOf entry.1 offset).val < (pageOf entry'.1 offset').val
      rw [val_pageOf (hnumber entry hentry), val_pageOf (hnumber entry' hentry')]
      omega
  · obtain ⟨page, frame⟩ := entry
    rw [mem_entries_iff, ← hholds page, PageChunks.iter, mem_flatMap]
    constructor
    · rintro ⟨entry, hentry, hframe⟩
      obtain ⟨offset, -, hframe⟩ := mem_filterMap.mp hframe
      obtain ⟨found, hfound, heq⟩ := Option.map_eq_some_iff.mp hframe
      obtain ⟨rfl, rfl⟩ := Prod.mk.inj heq
      rw [PageChunks.page, pageLocation_pageOf (hnumber entry hentry),
        mem_entries_iff.mp hentry]
      exact hfound
    · intro hpage
      obtain ⟨frames, hframes, hfound⟩ := Option.bind_eq_some_iff.mp hpage
      have hentry : ((pageLocation page).1, frames) ∈ chunks.entries :=
        mem_entries_iff.mpr hframes
      refine ⟨_, hentry, mem_filterMap.mpr ⟨(pageLocation page).2, mem_finRange _, ?_⟩⟩
      rw [Option.map_eq_some_iff]
      refine ⟨frame, hfound, Prod.ext ?_ rfl⟩
      exact pageLocation_injective (pageLocation_pageOf (pageLocation_lt page) _)

end Chunks

end Homebase.Multilite
