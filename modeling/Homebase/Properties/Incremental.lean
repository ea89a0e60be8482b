import Homebase.Foundation.Agree
import Homebase.Refine.Chain
import Homebase.Refine.Wal

set_option autoImplicit false

/-!
# Reading on equals reading from the start

A parser that is refreshed follows a file that changes between its observations.  It stands
where it has read to, past the last commit when valid frames follow that one, and a refresh
goes on from there.  So it returns what a parse from the start would, as long as the file
still has in front of that position the bytes the parser has read, and no more frames than can
be counted.

SQLite does not keep to this: a transaction that spilled frames and rolled back leaves valid
frames behind the last commit, and the next one writes over them.
-/

namespace Homebase.Multilite

open Foundation List

/-! ## Following a file -/

/-- The header of an observation, when it is read. -/
def Observation.header (seen : Observation) : Option WalHeader :=
  if seen.reads = some 0 ∨ seen.file.length < walHeaderSize then none
  else (parseHeader (seen.file.take walHeaderSize)).toOption

/-- A parser with what it has read. -/
structure Follower where
  parser : WalParser
  /-- The bytes in front of the position of the parser, as it read them. -/
  consumed : Bytes
  /-- What it returned, for every content. -/
  returned : List (Bytes × Except WalError (Option WalSnapshot))

namespace Follower

def new : Follower := ⟨none, [], []⟩

/-- The parser is refreshed. -/
def observe (follower : Follower) (seen : Observation) : Follower where
  parser := (follower.parser.refresh seen).1
  consumed :=
    match seen.header, (follower.parser.refresh seen).1 with
    | some _, some state => seen.file.take state.nextOffset
    | _, _ => follower.consumed
  returned :=
    follower.returned ++ ((follower.parser.refresh seen).2.map fun result => (seen.file, result)).toList

/-- The parser is refreshed again and again. -/
def run (follower : Follower) (observations : List Observation) : Follower :=
  observations.foldl observe follower

/-- What a refresh meets. -/
structure Undisturbed (follower : Follower) (seen : Observation) : Prop where
  /-- The file has no room for the frame at which the counter overflows. -/
  counted : ∀ header, seen.header = some header → seen.file.length < header.offset (2 ^ 32 - 1)
  /-- The file starts with another header, or is shorter than what the parser has read, or still
  begins with it. -/
  kept : ∀ state, follower.parser = some state → seen.header = some state.header →
    state.nextOffset ≤ seen.file.length → seen.file.take state.nextOffset = follower.consumed

/-- No observation disturbs the parser. -/
def Calm : Follower → List Observation → Prop
  | _, [] => True
  | follower, seen :: rest => follower.Undisturbed seen ∧ Calm (follower.observe seen) rest

/-- The parser stands on the chain of what it has read. -/
def Follows (follower : Follower) : Prop :=
  ∀ state, follower.parser = some state → ∃ n, state = state.header.stateAt follower.consumed n
    ∧ state.header.OnChain follower.consumed n
    ∧ follower.consumed.length = state.header.offset n

end Follower

/-! ## One refresh -/

section Refresh

variable {follower : Follower} {seen : Observation} {header : WalHeader} {file : Bytes} {n : Nat}

theorem offset_le_of_onChain (hlength : walHeaderSize ≤ file.length) (h : header.OnChain file n) :
    header.offset n ≤ file.length := by
  cases n with
  | zero =>
    rw [WalHeader.offset, Nat.zero_mul]
    exact hlength
  | succ n =>
    rw [offset_succ]
    exact (h n (Nat.lt_succ_self n)).1

/-- The end of the chain of a file. -/
theorem exists_chain_end (header : WalHeader) (file : Bytes) :
    ∃ n, header.OnChain file n ∧ ¬ header.ValidAt file n
      ∧ ((ParserState.start header).readFrames file).1 = header.stateAt file n := by
  obtain ⟨stop, -, hchain, hend, heq⟩ := readFrames_stateAt header file 0
  rw [stateAt_zero] at heq
  exact ⟨stop, fun i hi => hchain i (Nat.zero_le i) hi, hend, heq⟩

/-- A parse from the start. -/
theorem parse_eq (hlength : walHeaderSize ≤ file.length)
    (hheader : parseHeader (file.take walHeaderSize) = .ok header) (hchain : header.OnChain file n)
    (hend : ¬ header.ValidAt file n) : WalParser.parse file = .ok (header.committedAt file n) := by
  obtain ⟨stop, hstop, hstopEnd, heq⟩ := exists_chain_end header file
  rw [chain_end_unique hchain hend hstop hstopEnd]
  rw [WalParser.parse, WalParser.refreshSource, if_neg (not_lt.mpr hlength), hheader]
  change Except.ok _ = _
  dsimp only [WalParser.resume]
  rw [heq]
  rfl

/-- A refresh starts on the chain of the file. -/
theorem resume_eq (hfollows : follower.Follows) (hcalm : follower.Undisturbed seen)
    (hheader : seen.header = some header) :
    ∃ n, follower.parser.resume header seen.file.length = header.stateAt seen.file n
      ∧ header.OnChain seen.file n := by
  have hstart : ∃ n, ParserState.start header = header.stateAt seen.file n
      ∧ header.OnChain seen.file n := ⟨0, (stateAt_zero header seen.file).symm, nofun⟩
  cases hparser : follower.parser with
  | none => exact hstart
  | some state =>
    rw [WalParser.resume]
    split
    case isTrue => exact hstart
    case isFalse hkeep =>
      rw [not_or, not_not, not_lt] at hkeep
      obtain ⟨rfl, hlength⟩ := hkeep
      obtain ⟨n, hstate, hchain, hconsumed⟩ := hfollows state hparser
      have hoffset : state.nextOffset = state.header.offset n := congrArg ParserState.nextOffset hstate
      have htake := hcalm.kept state hparser hheader hlength
      rw [hoffset] at htake hlength
      have hagree : follower.consumed.take (state.header.offset n) =
          seen.file.take (state.header.offset n) := by
        rw [htake, ← hconsumed, take_length]
      refine ⟨n, ?_, onChain_congr hagree hlength hchain⟩
      rw [← stateAt_congr fun i hi => frameAt_congr hagree hi]
      exact hstate

/-- An observation whose header is not read, or not valid. -/
theorem refresh_of_header_none (hheader : seen.header = none) :
    (follower.parser.refresh seen).1 = follower.parser
      ∧ ((follower.parser.refresh seen).2 = none ∧ seen.reads ≠ none
        ∨ ∃ error, (follower.parser.refresh seen).2 = some (.error error)
          ∧ WalParser.parse seen.file = .error error) := by
  obtain ⟨file, reads⟩ := seen
  by_cases hfirst : reads = some 0
  · subst hfirst
    exact ⟨rfl, .inl ⟨rfl, nofun⟩⟩
  have hrefused : ∃ error, WalParser.parse file = .error error
      ∧ (∀ parser, WalParser.refreshSource parser file = .error error)
      ∧ ∀ parser reads, WalParser.refresh parser ⟨file, some (reads + 1)⟩ =
        (parser, some (.error error)) := by
    by_cases hshort : file.length < walHeaderSize
    · refine ⟨.incompleteHeader file.length, ?_, fun parser => ?_, fun parser reads => ?_⟩
      · rw [WalParser.parse, WalParser.refreshSource, if_pos hshort]
        rfl
      · rw [WalParser.refreshSource, if_pos hshort]
      · simp only [WalParser.refresh, if_pos hshort]
    · rw [Observation.header, if_neg (not_or.mpr ⟨hfirst, hshort⟩)] at hheader
      cases hparse : parseHeader (file.take walHeaderSize) with
      | ok header =>
        rw [hparse] at hheader
        exact absurd hheader nofun
      | error error =>
        refine ⟨error, ?_, fun parser => ?_, fun parser reads => ?_⟩
        · rw [WalParser.parse, WalParser.refreshSource, if_neg hshort, hparse]
          rfl
        · rw [WalParser.refreshSource, if_neg hshort, hparse]
          rfl
        · simp only [WalParser.refresh, if_neg hshort, hparse]
  obtain ⟨error, hcold, hsource, hsome⟩ := hrefused
  match reads with
  | none =>
    refine ⟨?_, .inr ⟨error, ?_, hcold⟩⟩ <;> simp only [WalParser.refresh, hsource]
  | some 0 => exact absurd rfl hfirst
  | some (reads + 1) =>
    refine ⟨?_, .inr ⟨error, ?_, hcold⟩⟩ <;> rw [hsome]

/-- A refresh takes the parser along the chain of the file, to its end unless a read fails. -/
theorem refresh_of_header (hfollows : follower.Follows) (hcalm : follower.Undisturbed seen)
    (hheader : seen.header = some header) :
    walHeaderSize ≤ seen.file.length
      ∧ parseHeader (seen.file.take walHeaderSize) = .ok header
      ∧ ∃ n, header.OnChain seen.file n
        ∧ (follower.parser.refresh seen).1 = some (header.stateAt seen.file n)
        ∧ ((follower.parser.refresh seen).2 = none ∧ seen.reads ≠ none
          ∨ ¬ header.ValidAt seen.file n
            ∧ (follower.parser.refresh seen).2 = some (.ok (header.committedAt seen.file n))) := by
  obtain ⟨start, hresume, hstart⟩ := resume_eq hfollows hcalm hheader
  obtain ⟨file, reads⟩ := seen
  rw [Observation.header] at hheader
  split at hheader
  · exact absurd hheader nofun
  case isFalse hread =>
    obtain ⟨hfirst, hlong⟩ := not_or.mp hread
    have hparse : parseHeader (file.take walHeaderSize) = .ok header := by
      cases hresult : parseHeader (file.take walHeaderSize) with
      | error error =>
        rw [hresult] at hheader
        exact absurd hheader nofun
      | ok found =>
        rw [hresult] at hheader
        rw [Option.some.inj hheader]
    refine ⟨not_lt.mp hlong, hparse, ?_⟩
    have hwhole : ∀ stop, (∀ i, start ≤ i → i < stop → header.ValidAt file i) →
        header.OnChain file stop := fun stop hmore i hi =>
      (Nat.lt_or_ge i start).elim (hstart i) fun hge => hmore i hge hi
    match reads with
    | none =>
      obtain ⟨stop, -, hmore, hend, heq⟩ := readFrames_stateAt header file start
      have hrefresh : WalParser.refresh follower.parser ⟨file, none⟩ =
          (some (header.stateAt file stop), some (.ok (header.committedAt file stop))) := by
        simp only [WalParser.refresh, WalParser.refreshSource, if_neg hlong, hparse, ok_bind,
          hresume, heq]
        rfl
      exact ⟨stop, hwhole stop hmore, by rw [hrefresh], .inr ⟨hend, by rw [hrefresh]⟩⟩
    | some 0 => exact absurd rfl hfirst
    | some (reads + 1) =>
      obtain ⟨stop, -, hmore, heq, hend⟩ := readSome_stateAt header file start reads
      have hrefresh : WalParser.refresh follower.parser ⟨file, some (reads + 1)⟩ =
          (some (header.stateAt file stop),
            ((header.stateAt file start).readSome reads file).2.map
              fun _ => .ok (header.committedAt file stop)) := by
        simp only [WalParser.refresh, if_neg hlong, hparse, hresume, heq]
        rfl
      refine ⟨stop, hwhole stop hmore, by rw [hrefresh], ?_⟩
      rw [hrefresh]
      cases htail : ((header.stateAt file start).readSome reads file).2 with
      | none => exact .inl ⟨rfl, nofun⟩
      | some tail => exact .inr ⟨hend (by rw [htail]; rfl), rfl⟩

/-- The parser stays on the chain of what it has read. -/
theorem Follower.Follows.observe (hfollows : follower.Follows)
    (hcalm : follower.Undisturbed seen) : (follower.observe seen).Follows := by
  cases hheader : seen.header with
  | none =>
    obtain ⟨hparser, -⟩ := @refresh_of_header_none follower seen hheader
    have hsame : (follower.observe seen).parser = follower.parser := hparser
    have hconsumed : (follower.observe seen).consumed = follower.consumed := by
      simp only [Follower.observe, hheader]
    intro state hstate
    rw [hconsumed]
    exact hfollows state (hsame ▸ hstate)
  | some header =>
    obtain ⟨hlength, -, n, hchain, hparser, -⟩ := refresh_of_header hfollows hcalm hheader
    have hconsumed : (follower.observe seen).consumed = seen.file.take (header.offset n) := by
      simp only [Follower.observe, hheader, hparser]
      rfl
    have hoffset := offset_le_of_onChain hlength hchain
    have hagree : seen.file.take (header.offset n) =
        (seen.file.take (header.offset n)).take (header.offset n) := by
      rw [take_take, min_self]
    intro state hstate
    obtain rfl := Option.some.inj (hparser.symm.trans hstate)
    have hsize : (seen.file.take (header.offset n)).length = header.offset n := by
      rw [length_take, min_eq_left hoffset]
    rw [hconsumed]
    refine ⟨n, ?_, onChain_congr hagree hsize.ge hchain, hsize⟩
    exact stateAt_congr fun i hi => frameAt_congr hagree hi

theorem Follower.follows_run {observations : List Observation} (hfollows : follower.Follows)
    (hcalm : follower.Calm observations) : (follower.run observations).Follows := by
  induction observations generalizing follower with
  | nil => exact hfollows
  | cons seen rest ih => exact ih (hfollows.observe hcalm.1) hcalm.2

theorem Follower.returned_run (follower : Follower) (observations : List Observation) :
    ∃ later, (follower.run observations).returned = follower.returned ++ later := by
  induction observations generalizing follower with
  | nil => exact ⟨[], (append_nil _).symm⟩
  | cons seen rest ih =>
    obtain ⟨later, hlater⟩ := ih (follower.observe seen)
    exact ⟨_, hlater.trans (append_assoc _ _ _)⟩

end Refresh

/-! ## What a parse says -/

/-- The snapshot of a commit: every page at its latest frame that no commit has cut off, as the
chunks of the page map have it. -/
structure WalSnapshot.Shows (snapshot : WalSnapshot) (header : WalHeader) (file : Bytes)
    (k : Nat) : Prop where
  epoch : snapshot.epoch = header.epoch
  maxFrame : snapshot.maxFrame.val = k + 1
  pageCount : snapshot.pageCount = header.countAt file k
  pageSize : snapshot.pageSize = header.pageSize
  pages : ∀ page frame, snapshot.pageMap.get page = some frame ↔
    ∃ i, IsGreatest (header.showing file (k + 1) page) i ∧ frame = header.placeAt i
  chunks : ∀ page, (header.chunksAt file (k + 1)).page page = snapshot.pageMap.get page
  iter : (header.chunksAt file (k + 1)).iter = snapshot.pageMap.entries

/-- The result of a parse is the last commit on the chain of the file. -/
def LastOnChain (file : Bytes) (result : Except WalError (Option WalSnapshot)) : Prop :=
  ∀ snapshot?, result = .ok snapshot? →
    ∃ header n, parseHeader (file.take walHeaderSize) = .ok header
      ∧ header.OnChain file n ∧ ¬ header.ValidAt file n
      ∧ (snapshot? = none → ∀ i < n, header.countAt file i = 0)
      ∧ ∀ snapshot, snapshot? = some snapshot →
        ∃ k, header.LastCommit file n k ∧ snapshot.Shows header file k

variable {header : WalHeader}

theorem frames_lt_of_offset_lt {n m : Nat} (h : header.offset n < header.offset m) : n < m := by
  have hmul : n * header.frameSize < m * header.frameSize := Nat.lt_of_add_lt_add_left h
  exact Nat.lt_of_mul_lt_mul_right hmul

theorem lastOnChain_parse {file : Bytes} (hlength : walHeaderSize ≤ file.length)
    (hheader : parseHeader (file.take walHeaderSize) = .ok header)
    (hcounted : file.length < header.offset (2 ^ 32 - 1)) :
    LastOnChain file (WalParser.parse file) := by
  intro snapshot? hparse
  obtain ⟨n, hchain, hend, -⟩ := exists_chain_end header file
  rw [parse_eq hlength hheader hchain hend] at hparse
  refine ⟨header, n, hheader, hchain, hend, ?_, ?_⟩
  · rintro rfl
    exact committedAt_eq_none_iff.mp (Except.ok.inj hparse)
  · rintro snapshot rfl
    obtain ⟨k, hlast, rfl⟩ := committedAt_eq_some (Except.ok.inj hparse)
    have hframes := frames_lt_of_offset_lt ((offset_le_of_onChain hlength hchain).trans_lt hcounted)
    have hnumber : (U32.ofNat (k + 1)).val = k + 1 := by
      have hk := hlast.1
      exact U32.val_ofNat (by omega)
    exact ⟨k, hlast, rfl, hnumber, rfl, rfl, fun page frame => get_mapAt_iff,
      holds_chunksAt header file (k + 1), iter_eq (numbered_chunksAt _ _ _) (holds_chunksAt _ _ _)⟩

/-! ## Whole runs -/

/-- As long as no observation disturbs the parser, a refresh that no read error ends returns what
a parse of the current content returns, and that is the last commit on the chain of the content;
without read errors every refresh returns; and what was returned stays. -/
theorem refresh_eq_parse {observations : List Observation}
    (h : Follower.new.Calm observations) :
    (∀ seen, (Follower.new.run observations).Undisturbed seen →
      (∀ result, ((Follower.new.run observations).parser.refresh seen).2 = some result →
        result = WalParser.parse seen.file ∧ LastOnChain seen.file result)
      ∧ (seen.reads = none →
        ((Follower.new.run observations).parser.refresh seen).2 = some (WalParser.parse seen.file)))
    ∧ ∀ more, ∃ later, (Follower.new.run (observations ++ more)).returned =
        (Follower.new.run observations).returned ++ later := by
  have hfollows := @Follower.follows_run .new observations nofun h
  generalize hfollower : Follower.new.run observations = follower at hfollows
  constructor
  · intro seen hcalm
    have hresult : (follower.parser.refresh seen).2 = none ∧ seen.reads ≠ none
        ∨ (follower.parser.refresh seen).2 = some (WalParser.parse seen.file)
          ∧ LastOnChain seen.file (WalParser.parse seen.file) := by
      cases hheader : seen.header with
      | none =>
        obtain ⟨-, hnone | ⟨error, hsome, hcold⟩⟩ := @refresh_of_header_none follower seen hheader
        · exact .inl hnone
        · rw [hsome, hcold]
          exact .inr ⟨rfl, nofun⟩
      | some header =>
        obtain ⟨hlength, hparse, n, hchain, -, hnone | ⟨hend, hsome⟩⟩ :=
          refresh_of_header hfollows hcalm hheader
        · exact .inl hnone
        · refine .inr ⟨?_, lastOnChain_parse hlength hparse (hcalm.counted header hheader)⟩
          rw [hsome, parse_eq hlength hparse hchain hend]
    obtain ⟨hnone, hreads⟩ | ⟨hsome, hlast⟩ := hresult
    · refine ⟨fun result hresult => ?_, fun hall => absurd hall hreads⟩
      exact absurd (hnone.symm.trans hresult) nofun
    · refine ⟨fun result hresult => ?_, fun _ => hsome⟩
      rw [← Option.some.inj (hsome.symm.trans hresult)]
      exact ⟨rfl, hlast⟩
  · intro more
    have hrun : Follower.new.run (observations ++ more) = follower.run more := by
      rw [← hfollower, Follower.run, foldl_append]
      rfl
    rw [hrun]
    exact Follower.returned_run follower more

/-! ## Files with frames of one incarnation -/

/-- A WAL file with frames for these page images. -/
def Origin.file (origin : Origin) (rows : List PageImage) : Bytes :=
  origin.bytes ++ (sealRows origin.order origin.salts origin.checksum rows).flatMap Frame.bytes

section Files

variable {origin : Origin} {rows rows' : List PageImage}

theorem take_file (origin : Origin) (rows : List PageImage) :
    (origin.file rows).take walHeaderSize = origin.bytes :=
  take_left' (length_bytes origin)

theorem walHeaderSize_le_file (origin : Origin) (rows : List PageImage) :
    walHeaderSize ≤ (origin.file rows).length := by
  rw [Origin.file, length_append, length_bytes]
  exact Nat.le_add_right _ _

theorem length_file (hrows : ∀ row ∈ rows, row.Whole origin.pageSize) :
    (origin.file rows).length = ((ParserState.start origin.header).advance rows).nextOffset := by
  rw [Origin.file, length_append, length_bytes, length_flatMap_sealRows hrows,
    nextOffset_advance]
  rfl

theorem readFrames_file (hrows : ∀ row ∈ rows, row.Whole origin.pageSize) :
    ((ParserState.start origin.header).readFrames (origin.file rows)).1 =
      (ParserState.start origin.header).advance rows := by
  have hread := @readFrames_sealRows rows [] (ParserState.start origin.header) origin.bytes
    (length_bytes origin) hrows nofun
  rw [flatMap_nil, append_nil] at hread
  exact hread

theorem file_append (origin : Origin) (rows more : List PageImage) :
    ∃ frames, origin.file (rows ++ more) = origin.file rows ++ frames := by
  have hseal := sealRows_append origin.order rows more (ParserState.start origin.header) rfl
  refine ⟨(sealRows origin.order origin.salts
    ((ParserState.start origin.header).advance rows).checksum more).flatMap Frame.bytes, ?_⟩
  rw [Origin.file, Origin.file, append_assoc]
  refine congrArg _ ?_
  exact (congrArg (List.flatMap Frame.bytes) hseal).trans flatMap_append

variable (hsize : PageSizeValid origin.pageSize)
  (hrows : ∀ row ∈ rows, row.Whole origin.pageSize)

include hsize hrows

theorem refreshSource_file :
    ∃ parse, WalParser.refreshSource none (origin.file rows) =
        .ok (some ((ParserState.start origin.header).advance rows), parse)
      ∧ parse.snapshot = ((ParserState.start origin.header).advance rows).committed := by
  rw [WalParser.refreshSource, if_neg (not_lt.mpr (walHeaderSize_le_file origin rows)), take_file,
    parseHeader_bytes origin hsize, ok_bind]
  dsimp only [WalParser.resume]
  rw [readFrames_file hrows]
  exact ⟨_, rfl, rfl⟩

theorem parse_file :
    WalParser.parse (origin.file rows) =
      .ok ((ParserState.start origin.header).advance rows).committed := by
  obtain ⟨parse, hrefresh, hsnapshot⟩ := refreshSource_file hsize hrows
  rw [WalParser.parse, hrefresh, ← hsnapshot]
  rfl

theorem observe_file :
    (Follower.new.observe ⟨origin.file rows, none⟩).parser =
        some ((ParserState.start origin.header).advance rows)
      ∧ (Follower.new.observe ⟨origin.file rows, none⟩).consumed = origin.file rows := by
  obtain ⟨parse, hrefresh, -⟩ := refreshSource_file hsize hrows
  have hnew : Follower.new.parser = none := rfl
  have hparser : (Follower.new.parser.refresh ⟨origin.file rows, none⟩).1 =
      some ((ParserState.start origin.header).advance rows) := by
    rw [hnew]
    simp only [WalParser.refresh, hrefresh]
  have hheader : (Observation.mk (origin.file rows) none).header = some origin.header := by
    rw [Observation.header,
      if_neg (not_or.mpr ⟨nofun, not_lt.mpr (walHeaderSize_le_file origin rows)⟩), take_file,
      parseHeader_bytes origin hsize]
    rfl
  refine ⟨hparser, ?_⟩
  have hconsumed : (Follower.new.observe ⟨origin.file rows, none⟩).consumed =
      (origin.file rows).take ((ParserState.start origin.header).advance rows).nextOffset := by
    simp only [Follower.observe, hheader, hparser]
  rw [hconsumed, ← length_file hrows, take_length]

/-- A parser at the end of a file does not notice that frames in front of it change. -/
theorem refresh_rewritten (hrows' : ∀ row ∈ rows', row.Whole origin.pageSize)
    (hlength : rows'.length = rows.length) :
    ((Follower.new.observe ⟨origin.file rows, none⟩).parser.refresh
        ⟨origin.file rows', none⟩).2 =
      some (.ok ((ParserState.start origin.header).advance rows).committed) := by
  have hend : (origin.file rows').length =
      ((ParserState.start origin.header).advance rows).nextOffset := by
    rw [length_file hrows', nextOffset_advance, nextOffset_advance, hlength]
  have hresume : WalParser.resume (some ((ParserState.start origin.header).advance rows))
      origin.header (origin.file rows').length = (ParserState.start origin.header).advance rows := by
    rw [WalParser.resume, if_neg]
    rintro (hother | hshort)
    · exact hother (header_advance _ _)
    · exact absurd hshort (not_lt.mpr hend.ge)
  have hread : ((ParserState.start origin.header).advance rows).readFrames (origin.file rows') =
      ((ParserState.start origin.header).advance rows, .complete) := by
    rw [ParserState.readFrames, if_neg (not_lt.mpr hend.le)]
  rw [(observe_file hsize hrows).1]
  simp only [WalParser.refresh, WalParser.refreshSource,
    if_neg (not_lt.mpr (walHeaderSize_le_file origin rows')), take_file,
    parseHeader_bytes origin hsize, ok_bind, hresume, hread]
  rfl

end Files

/-! ## A transaction writes over the frames of another -/

/-- A database with pages of 512 bytes. -/
def sampleOrigin : Origin := ⟨.big, 512, 0, (1, 2)⟩

/-- The image of a page; its frame completes a commit when `pageCount` is not 0. -/
def sampleImage (page pageCount : U32) : PageImage := ⟨page, pageCount, List.replicate 512 0⟩

theorem sampleOrigin_valid : PageSizeValid sampleOrigin.pageSize := by decide

theorem sampleImage_whole {page pageCount : U32} (h : 0 < page) :
    (sampleImage page pageCount).Whole sampleOrigin.pageSize :=
  ⟨length_replicate, h⟩

/-- A commit, and a frame that another transaction spilled before it rolled back. -/
def spilled : List PageImage := [sampleImage 1 1, sampleImage 2 0]

/-- The next commit writes over the spilled frame. -/
def overwritten : List PageImage := [sampleImage 1 1, sampleImage 2 2]

theorem spilled_whole : ∀ row ∈ spilled, row.Whole sampleOrigin.pageSize := by
  simp only [spilled, forall_mem_cons, not_mem_nil, false_imp_iff, implies_true, and_true]
  exact ⟨sampleImage_whole (by decide), sampleImage_whole (by decide)⟩

theorem overwritten_whole : ∀ row ∈ overwritten, row.Whole sampleOrigin.pageSize := by
  simp only [overwritten, forall_mem_cons, not_mem_nil, false_imp_iff, implies_true,
    and_true]
  exact ⟨sampleImage_whole (by decide), sampleImage_whole (by decide)⟩

theorem sample_counted {rows : List PageImage} {reads : Option Nat}
    (hrows : ∀ row ∈ rows, row.Whole sampleOrigin.pageSize) (hfew : rows.length < 1000) :
    ∀ header, Observation.header ⟨sampleOrigin.file rows, reads⟩ = some header →
      (sampleOrigin.file rows).length < header.offset (2 ^ 32 - 1) := by
  intro header _
  have hframe : 24 * (2 ^ 32 - 1) ≤ header.offset (2 ^ 32 - 1) := by
    simp only [WalHeader.offset, WalHeader.frameSize, frameHeaderSize]
    omega
  rw [length_file hrows, nextOffset_advance]
  have hsize : (ParserState.start sampleOrigin.header).frameSize = 536 := rfl
  have hstart : (ParserState.start sampleOrigin.header).nextOffset = 32 := rfl
  rw [hsize, hstart]
  omega

/-- A parser that has read a spilled frame goes on behind it. -/
theorem refresh_eq_parse_appended :
    Follower.new.Calm [⟨sampleOrigin.file spilled, none⟩]
      ∧ ((Follower.new.run [⟨sampleOrigin.file spilled, none⟩]).parser.refresh
          ⟨sampleOrigin.file (spilled ++ [sampleImage 3 3]), none⟩).2 =
        some (WalParser.parse (sampleOrigin.file (spilled ++ [sampleImage 3 3]))) := by
  have hcalm : Follower.new.Calm [⟨sampleOrigin.file spilled, none⟩] :=
    ⟨⟨sample_counted spilled_whole (by decide), nofun⟩, trivial⟩
  have hmore : ∀ row ∈ spilled ++ [sampleImage 3 3], row.Whole sampleOrigin.pageSize :=
    forall_mem_append.mpr ⟨spilled_whole, forall_mem_singleton.mpr (sampleImage_whole (by decide))⟩
  refine ⟨hcalm, ((refresh_eq_parse hcalm).1 _
    ⟨sample_counted hmore (by decide), fun state hstate _ _ => ?_⟩).2 rfl⟩
  obtain ⟨hparser, hconsumed⟩ := observe_file sampleOrigin_valid spilled_whole
  obtain ⟨frames, hframes⟩ := file_append sampleOrigin spilled [sampleImage 3 3]
  rw [← Option.some.inj (hparser.symm.trans hstate)]
  refine Eq.trans ?_ hconsumed.symm
  rw [hframes, ← length_file spilled_whole]
  exact take_left

/-- Files with the same first frame agree up to its end. -/
theorem take_file_cons (row : PageImage) (rows : List PageImage)
    (hrow : row.Whole sampleOrigin.pageSize) :
    (sampleOrigin.file (row :: rows)).take (sampleOrigin.header.offset 1) =
      sampleOrigin.file [row] := by
  obtain ⟨frames, hframes⟩ := file_append sampleOrigin [row] rows
  rw [← singleton_append, hframes]
  refine take_left' ?_
  have hone : ∀ other ∈ [row], other.Whole sampleOrigin.pageSize :=
    fun other hother => mem_singleton.mp hother ▸ hrow
  rw [length_file hone, nextOffset_advance]
  rfl

/-- The commit of a transaction that wrote over spilled frames is missed: the second file agrees
with the first one up to the end of its last commit, and a parse of it returns that commit. -/
theorem overwritten_commit_missed :
    ∃ (first second : Bytes) (header : WalHeader) (before missed after : WalSnapshot),
      parseHeader (first.take walHeaderSize) = .ok header
      ∧ WalParser.parse first = .ok (some before)
      ∧ second.take (header.offset before.maxFrame.val) =
        first.take (header.offset before.maxFrame.val)
      ∧ ((Follower.new.observe ⟨first, none⟩).parser.refresh ⟨second, none⟩).2 =
        some (.ok (some missed))
      ∧ WalParser.parse second = .ok (some after)
      ∧ missed.maxFrame = 1 ∧ after.maxFrame = 2 := by
  refine ⟨sampleOrigin.file spilled, sampleOrigin.file overwritten, sampleOrigin.header, _, _, _,
    ?_, parse_file sampleOrigin_valid spilled_whole, ?_,
    refresh_rewritten sampleOrigin_valid spilled_whole overwritten_whole rfl,
    parse_file sampleOrigin_valid overwritten_whole, rfl, rfl⟩
  · rw [take_file, parseHeader_bytes _ sampleOrigin_valid]
  · have hwhole : (sampleImage 1 1).Whole sampleOrigin.pageSize := sampleImage_whole (by decide)
    exact (take_file_cons _ _ hwhole).trans (take_file_cons _ _ hwhole).symm

end Homebase.Multilite
