import Homebase.Refine.Run

set_option autoImplicit false

/-!
# Properties: pages of a listing

`list` scans from just above its cursor to the end of its prefix.  The cursor is clamped to the
prefix from below only, so a cursor beyond the prefix makes an inverted range, which a store with
entries refuses.  Every other page is the page the replayed log has, and a reader that goes on after
the last key it was given never leaves the prefix.
-/

namespace Homebase.Properties

open Foundation Homebase.Core Server Ledger Refine List

/-! ## Cursors -/

/-- A zero byte makes the least string above another one. -/
theorem concat_zero_le_iff {s t : Bytes} : s ++ [0] ≤ t ↔ s < t := by
  induction s generalizing t with
  | nil =>
    cases t with
    | nil => simp
    | cons b t =>
      have hle : [0] ≤ b :: t := by
        rw [cons_le_cons_iff_lex]
        rcases (Fin.zero_le b).lt_or_eq with hlt | heq
        · exact .inl hlt
        · exact .inr ⟨heq, nil_le_list t⟩
      exact ⟨fun _ => nil_lt_cons b t, fun _ => hle⟩
  | cons a s ih =>
    cases t with
    | nil => simp
    | cons b t => rw [cons_append, cons_le_cons_iff_lex, cons_lt_cons_iff, ih]

variable {a b : Key}

theorem dataKey_lt_iff {space : SpaceId} : dataKey space a < dataKey space b ↔ a < b := by
  rw [dataKey, dataKey, encodeComponents_lt_iff, append_lt_append_iff, Key.lt_iff]

theorem dataKey_isPrefix_iff {space : SpaceId} :
    dataKey space a <+: dataKey space b ↔ b.startsWith a = true := by
  rw [dataKey, dataKey, encodeComponents_isPrefix_iff, prefix_append_right_inj,
    Key.startsWith_iff]

/-- Where the scan of a listing ends. -/
def listStop (space : SpaceId) (req : ListRequest) : Option Bytes :=
  prefixSuccessor (dataKey space req.listPrefix)

/-- The scan of a listing does not start after its end. -/
def ScanOrdered (space : SpaceId) (req : ListRequest) : Prop :=
  ∀ stop ∈ listStop space req, listStart space req ≤ stop

/-- The cursor is in the prefix or before it. -/
def CursorWithin (req : ListRequest) : Prop :=
  ∀ after ∈ req.startAfter, after.startsWith req.listPrefix = true ∨ after < req.listPrefix

theorem base_le_listStart (space : SpaceId) (req : ListRequest) :
    dataKey space req.listPrefix ≤ listStart space req := by
  unfold listStart
  split
  · exact le_max_right _ _
  · exact le_refl _

variable {req : ListRequest}

theorem base_lt_stop {space : SpaceId} {stop : Bytes} (hstop : stop ∈ listStop space req) :
    dataKey space req.listPrefix < stop :=
  ((isPrefix_iff_between _ _).mp (prefix_refl _)).2 stop hstop

theorem scanOrdered_iff {space : SpaceId} : ScanOrdered space req ↔ CursorWithin req := by
  obtain ⟨listPrefix, startAfter, limit⟩ := req
  cases startAfter with
  | none =>
    refine ⟨fun _ after hafter => absurd hafter (Option.not_mem_none after), fun _ stop hstop => ?_⟩
    exact (base_lt_stop hstop).le
  | some after =>
    constructor
    · intro hordered after' hafter'
      cases hafter'
      by_contra hbeyond
      rw [not_or] at hbeyond
      have hle : dataKey space listPrefix ≤ dataKey space after := by
        rw [← not_lt, dataKey_lt_iff]
        exact hbeyond.2
      -- a key at or above the prefix and not in it is above its successor
      have hstop : ∃ stop ∈ prefixSuccessor (dataKey space listPrefix), stop ≤ dataKey space after := by
        by_contra hnone
        refine hbeyond.1 (dataKey_isPrefix_iff.mp ((isPrefix_iff_between _ _).mpr ⟨hle, ?_⟩))
        intro stop hstop
        exact not_le.mp fun hge => hnone ⟨stop, hstop, hge⟩
      obtain ⟨stop, hmem, hge⟩ := hstop
      have hstart : dataKey space after ++ [0] ≤ stop :=
        (le_max_left _ _).trans (hordered stop hmem)
      exact absurd (concat_zero_le_iff.mp hstart) (not_lt.mpr hge)
    · intro hwithin stop hstop
      refine max_le ?_ (base_lt_stop hstop).le
      rcases hwithin after rfl with hunder | hbefore
      · have hprefix : dataKey space listPrefix <+: dataKey space after :=
          dataKey_isPrefix_iff.mpr hunder
        exact concat_zero_le_iff.mpr (((isPrefix_iff_between _ _).mp hprefix).2 stop hstop)
      · exact concat_zero_le_iff.mpr ((dataKey_lt_iff.mpr hbefore).trans (base_lt_stop hstop))

/-- A row of the prefix is scanned exactly if it comes after the cursor. -/
theorem listStart_le_iff {space : SpaceId} {key : Key}
    (hunder : key.startsWith req.listPrefix = true) :
    listStart space req ≤ dataKey space key ↔
      (req.startAfter.all fun after => decide (after < key)) = true := by
  have hbase : dataKey space req.listPrefix ≤ dataKey space key :=
    ((isPrefix_iff_between _ _).mp (dataKey_isPrefix_iff.mpr hunder)).1
  unfold listStart
  split
  next after hafter =>
    rw [max_le_iff, concat_zero_le_iff, dataKey_lt_iff, hafter, Option.all_some,
      decide_eq_true_iff, and_iff_left hbase]
  next hnone => simp [hnone, hbase]

/-! ## Pages -/

/-- The visible rows under a prefix and after a cursor, in key order. -/
def rowsAfter (live : OrdMap Key Entry) (listPrefix : Key) (startAfter : Option Key) :
    List (Key × Entry) :=
  live.entries.filter fun p =>
    p.1.startsWith listPrefix && startAfter.all fun after => decide (after < p.1)

/-- The visible entries under a prefix and after a cursor, in key order. -/
def listAfter (live : OrdMap Key Entry) (listPrefix : Key) (startAfter : Option Key) : List Entry :=
  (rowsAfter live listPrefix startAfter).map Prod.snd

section Pages

variable {space : SpaceId} {store : Store} {es : List Entry}
  (hk : Known space store) (hm : Materialized space store es) (hc : Chronicle es)

include hk hm

variable {req : ListRequest}

/-- The rows `list` scans are those of the prefix that come after the cursor. -/
theorem scan_listStart (hwithin : CursorWithin req) :
    store.scan (listStart space req) (listStop space req) =
      some (((lastPoints es).entries.filter fun p => p.1.startsWith req.listPrefix &&
        req.startAfter.all fun after => decide (after < p.1)).map (pointRow space)) := by
  have hunder := rowsUnder_data hk hm (.prefixed req.listPrefix)
  rw [map_rowBytes_dataRows] at hunder
  have hbase : store.range (dataKey space req.listPrefix) (listStop space req) =
      ((lastPoints es).entries.filter fun p =>
        (Range.prefixed req.listPrefix).coversKey p.1).map (pointRow space) := by
    have hscan := Store.scanPrefix_eq_some store (dataKey space req.listPrefix)
    change expect _ (store.scanPrefix (dataKey space req.listPrefix)) = _ at hunder
    rw [hscan] at hunder
    exact Except.ok.inj hunder
  have hstart : store.range (listStart space req) (listStop space req) =
      (store.range (dataKey space req.listPrefix) (listStop space req)).filter fun row =>
        decide (listStart space req ≤ row.1) := by
    rw [OrdMap.range, OrdMap.range, filter_filter]
    refine filter_congr fun row _ => ?_
    by_cases h : listStart space req ≤ row.1
    · simp [h, (base_le_listStart space req).trans h]
    · simp [h]
  rw [store.scan_eq_some (scanOrdered_iff.mpr hwithin), hstart, hbase, filter_map,
    filter_filter]
  congr 2
  refine filter_congr fun p _ => ?_
  rw [Bool.eq_iff_iff, Bool.and_eq_true, Bool.and_eq_true, and_comm]
  refine and_congr_right fun hunder => ?_
  exact (decide_eq_true_iff).trans (listStart_le_iff hunder)

include hc

/-- A page is the page of the replayed log. -/
theorem list_page (hwithin : CursorWithin req) :
    list space store req =
      .ok (pageOf req.limit (listAfter (replay es) req.listPrefix req.startAfter)) := by
  have hlast : ∀ p ∈ (lastPoints es).entries.filter (fun p => p.1.startsWith req.listPrefix &&
      req.startAfter.all fun after => decide (after < p.1)), lastPoint es p.1 = some p.2 := by
    intro p hp
    rw [← get_lastPoints]
    exact OrdMap.mem_entries_iff.mp (mem_filter.mp hp).1
  have hscan := scan_listStart hk hm hwithin
  rw [listStop] at hscan
  have hshown : listAfter (replay es) req.listPrefix req.startAfter =
      (((lastPoints es).entries.filter fun p => p.1.startsWith req.listPrefix &&
        req.startAfter.all fun after => decide (after < p.1)).filter
          fun p => shows es p.1 p.2).map Prod.snd := by
    rw [listAfter, rowsAfter, replay_eq_retain hc, OrdMap.retain, filter_filter,
      filter_filter]
    congr 2
    funext p
    exact Bool.and_comm _ _
  have hroom : ∀ n ∈ req.limit, ([] : List Entry).length ≤ n := fun n _ => Nat.zero_le n
  rw [list, hscan, expect_some, ok_bind, listLoop_spec hm hc hlast hroom, nil_append, hshown]

end Pages

variable {store : Store}

/-- A cursor beyond the prefix makes a scan that a store with entries refuses. -/
theorem list_beyond {space : SpaceId} (hne : store.entries ≠ []) (hbeyond : ¬ CursorWithin req) :
    list space store req = .error (.panic "range start is greater than range end in BTreeMap") := by
  have hinverted : ¬ ScanOrdered space req := fun hordered => hbeyond (scanOrdered_iff.mp hordered)
  have hscan : store.scan (listStart space req) (listStop space req) = none :=
    if_neg (not_or.mpr ⟨hne, hinverted⟩)
  rw [listStop] at hscan
  rw [list, hscan]
  rfl

/-! ## Enumeration -/

/-- The entries a reader collects that asks for pages of one size, each after the last key of the
page before, as long as there is more. -/
def collect (space : SpaceId) (store : Store) (listPrefix : Key) (limit : Nat) :
    Nat → Option Key → Except Failure (List Entry)
  | 0, _ => .ok []
  | fuel + 1, startAfter => do
      let response ← list space store ⟨listPrefix, startAfter, some limit⟩
      match response.truncated, response.entries.getLast? with
      | true, some last => do
          let rest ← collect space store listPrefix limit fuel last.mutation.pointKey
          .ok (response.entries ++ rest)
      | _, _ => .ok response.entries

variable {front rest : List (Key × Entry)} {row : Key × Entry}

/-- In a list that is sorted by keys, the rows above a key are those behind it. -/
theorem filter_above (hsorted : (front ++ row :: rest).Pairwise fun a b => a.1 < b.1) :
    ((front ++ row :: rest).filter fun p => decide (row.1 < p.1)) = rest := by
  obtain ⟨-, hrow, hfront⟩ := pairwise_append.mp hsorted
  have hempty : front.filter (fun p => decide (row.1 < p.1)) = [] := by
    refine filter_eq_nil_iff.mpr fun p hp => ?_
    rw [decide_eq_true_iff]
    exact lt_asymm (hfront p hp row mem_cons_self)
  rw [filter_append, hempty, nil_append, filter_cons,
    if_neg (by simp), filter_eq_self]
  exact fun p hp => decide_eq_true ((pairwise_cons.mp hrow).1 p hp)

variable {startAfter : Option Key}

/-- What comes after the last key of a page is the rest. -/
theorem rowsAfter_row {live : OrdMap Key Entry} {listPrefix : Key}
    (h : rowsAfter live listPrefix startAfter = front ++ row :: rest) :
    rowsAfter live listPrefix (some row.1) = rest := by
  have hsorted : (rowsAfter live listPrefix startAfter).Pairwise fun a b => a.1 < b.1 :=
    live.sorted.filter _
  have hrow : row ∈ rowsAfter live listPrefix startAfter := by simp [h]
  obtain ⟨-, hcovered⟩ := mem_filter.mp hrow
  obtain ⟨-, hcursor⟩ := Bool.and_eq_true_iff.mp hcovered
  rw [h] at hsorted
  rw [← filter_above hsorted, ← h, rowsAfter, rowsAfter, filter_filter]
  refine filter_congr fun p _ => ?_
  -- a key above the row is above the cursor the row is above of
  have hpass : row.1 < p.1 → (startAfter.all fun after => decide (after < p.1)) = true := by
    intro hlt
    rw [Option.all_eq_true] at hcursor ⊢
    exact fun after hafter => decide_eq_true ((of_decide_eq_true (hcursor after hafter)).trans hlt)
  by_cases hlt : row.1 < p.1
  · simp [hlt, hpass hlt]
  · simp [hlt]

theorem collect_spec {space : SpaceId} {es : List Entry} (hk : Known space store)
    (hm : Materialized space store es) (hc : Chronicle es) (listPrefix : Key) (limit : Nat)
    {fuel : Nat} (hwithin : CursorWithin ⟨listPrefix, startAfter, some (limit + 1)⟩)
    (hfuel : (rowsAfter (replay es) listPrefix startAfter).length < fuel) :
    collect space store listPrefix (limit + 1) fuel startAfter =
      .ok (listAfter (replay es) listPrefix startAfter) := by
  induction fuel generalizing startAfter with
  | zero => exact absurd hfuel (Nat.not_lt_zero _)
  | succ fuel ih =>
    have hpage := list_page hk hm hc hwithin
    rw [collect, hpage, ok_bind]
    by_cases hlast : (rowsAfter (replay es) listPrefix startAfter).length ≤ limit + 1
    · have hlength : (listAfter (replay es) listPrefix startAfter).length ≤ limit + 1 := by
        rw [listAfter, length_map]
        exact hlast
      simp only [pageOf, Nat.not_lt.mpr hlength, decide_false, take_of_length_le hlength]
    · -- the page ends with the row at `limit`, and the rest comes after that row
      have hlt : limit < (rowsAfter (replay es) listPrefix startAfter).length := by omega
      obtain ⟨front, row, rest, hrows, hfront⟩ : ∃ front row rest,
          rowsAfter (replay es) listPrefix startAfter = front ++ row :: rest ∧
            front.length = limit :=
        ⟨_, _, _, by rw [← drop_eq_getElem_cons hlt, take_append_drop],
          length_take_of_le hlt.le⟩
      have hmem : row ∈ rowsAfter (replay es) listPrefix startAfter := by simp [hrows]
      obtain ⟨hget, hcovered⟩ := mem_filter.mp hmem
      have hkey : row.2.mutation.pointKey = some row.1 :=
        (mem_of_lastPoint ((get_replay_eq_some_iff hc).mp (OrdMap.mem_entries_iff.mp hget)).1).2
      have hunder := (Bool.and_eq_true_iff.mp hcovered).1
      have hrest := rowsAfter_row hrows
      have hwithin' : CursorWithin ⟨listPrefix, some row.1, some (limit + 1)⟩ := by
        intro after hafter
        cases hafter
        exact .inl hunder
      have hfuel' : (rowsAfter (replay es) listPrefix (some row.1)).length < fuel := by
        rw [hrest]
        rw [hrows, length_append, length_cons] at hfuel
        omega
      have hall : listAfter (replay es) listPrefix startAfter =
          (front.map Prod.snd ++ [row.2]) ++ rest.map Prod.snd := by
        rw [listAfter, hrows]
        simp
      have htake : (listAfter (replay es) listPrefix startAfter).take (limit + 1) =
          front.map Prod.snd ++ [row.2] := by
        rw [hall, take_left' (by simp [hfront])]
      have hmore : limit + 1 < (listAfter (replay es) listPrefix startAfter).length := by
        rw [listAfter, length_map]
        omega
      simp only [pageOf, hmore, decide_true, htake, getLast?_concat, hkey]
      rw [ih hwithin' hfuel', ok_bind, hall, listAfter, hrest]

/-- A listing returns the first visible entries of its prefix after its cursor, in key order, and
says whether there are more, with a scan the store accepts, exactly if its cursor is not beyond its
prefix.  A reader that goes on after the last key of each page collects every visible entry once. -/
theorem list_pagination (sha256 : Bytes → ByteArr 32) (space : SpaceId) (verbs : List Verb) :
    let store := (run sha256 space verbs).store
    let live := replay (events (log sha256 space verbs))
    (∀ req : ListRequest,
      (ScanOrdered space req ∧ list space store req =
        .ok (pageOf req.limit (listAfter live req.listPrefix req.startAfter))) ↔
          CursorWithin req) ∧
    ∀ (listPrefix : Key) (limit : Nat), ∃ enough, ∀ more,
      collect space store listPrefix (limit + 1) (enough + more) none =
        .ok (listUnder live (.prefixed listPrefix)) := by
  obtain ⟨L, hD, hV, hlog⟩ := run_refines sha256 space verbs
  rw [← hlog]
  have hc := hV.logged.chronicle
  refine ⟨fun req => ⟨fun h => scanOrdered_iff.mp h.1, fun hwithin => ?_⟩,
    fun listPrefix limit => ⟨(rowsAfter (replay (events L.log)) listPrefix none).length + 1,
      fun more => ?_⟩⟩
  · exact ⟨scanOrdered_iff.mpr hwithin, list_page hD.known hD.materialized hc hwithin⟩
  · have hwithin : CursorWithin ⟨listPrefix, none, some (limit + 1)⟩ := fun after hafter =>
      absurd hafter (Option.not_mem_none after)
    rw [collect_spec hD.known hD.materialized hc listPrefix limit hwithin (by omega), listAfter,
      rowsAfter, listUnder]
    simp [Range.coversKey]

/-! ## A cursor beyond the prefix -/

namespace Beyond

def space : SpaceId := .zero 16

def device : DeviceId := .zero 16

def keyA : Key := Key.ofByte 97

def keyZ : Key := Key.ofByte 122

/-- The first submission of a device sets `m`. -/
def verbs : List Verb :=
  [.admitRequest 3 ⟨device, DeviceChecksum.empty, [], [⟨1, [],
    [⟨.set (Key.ofByte 109) ⟨[]⟩, ⟨device, 1, 1, 0⟩, ⟨.aeadV1, .zero 24, .zero 16, []⟩⟩]⟩]⟩]

end Beyond

open Beyond in
/-- In a space with one key, a listing of `a` after `z` asks for an inverted scan, where no entry is
left to list. -/
theorem list_panics_beyond :
    let store := (run (fun _ => .zero 32) space verbs).store
    ¬ ScanOrdered space ⟨keyA, some keyZ, none⟩ ∧
      list space store ⟨keyA, some keyZ, none⟩ =
        .error (.panic "range start is greater than range end in BTreeMap") ∧
      listAfter (replay (events (log (fun _ => .zero 32) space verbs))) keyA (some keyZ) = [] := by
  have hbeyond : ¬ CursorWithin ⟨keyA, some keyZ, none⟩ := by
    intro h
    exact absurd (h _ rfl) (by decide)
  exact ⟨fun h => hbeyond (scanOrdered_iff.mp h), list_beyond (by decide +kernel) hbeyond,
    by decide +kernel⟩

end Homebase.Properties
