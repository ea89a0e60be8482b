import Homebase.Foundation.Extrema
import Homebase.Server.Space

set_option autoImplicit false

/-!
# Ledger: replaying admitted entries

The purpose of the data plane, said without a store: the state of a space is the
replay of its admitted entries in admission order.  A Set binds its key, a Delete
unbinds it, a DeleteRange unbinds every key its range covers.

`get_replay` is the other reading of the same state, the one the store can
answer locally: a key is bound by its last point operation if that is a Set and
no covering DeleteRange came later.  The two agree on every list whose entries
are in strictly increasing order, which is what `Chronicle` says of a log.
-/

namespace Homebase.Ledger

open Foundation Homebase.Core Server List

/-! ## The replay -/

/-- What one admitted entry does to the visible state. -/
def applyEvent (live : OrdMap Key Entry) (e : Entry) : OrdMap Key Entry :=
  match e.mutation with
  | .set key _ => live.insert key e
  | .delete key => live.erase key
  | .deleteRange range => live.retain fun key _ => !range.coversKey key

/-- The visible state after the entries, in order. -/
def replay (es : List Entry) : OrdMap Key Entry := es.foldl applyEvent OrdMap.empty

@[simp] theorem replay_nil : replay [] = OrdMap.empty := rfl

theorem replay_concat (es : List Entry) (e : Entry) :
    replay (es ++ [e]) = applyEvent (replay es) e := by
  simp [replay, foldl_append]

theorem replay_append (es ds : List Entry) : replay (es ++ ds) = ds.foldl applyEvent (replay es) := by
  simp [replay, foldl_append]

/-- The visible entries under a range, in key order. -/
def listUnder (live : OrdMap Key Entry) (range : Range) : List Entry :=
  (live.entries.filter fun p => range.coversKey p.1).map Prod.snd

/-- The number of visible keys under a range. -/
def countUnder (live : OrdMap Key Entry) (range : Range) : Nat := live.count range.coversKey

/-! ## Chronicles -/

/-- A list of entries that can be a log: strictly increasing positions from
sequence one on, one author per sequence, and seals the kernel accepts. -/
structure Chronicle (es : List Entry) : Prop where
  sorted : es.Pairwise fun a b => a.order < b.order
  seq_ne_zero : ∀ e ∈ es, e.seq ≠ 0
  one_author : ∀ a ∈ es, ∀ b ∈ es, a.seq = b.seq → a.device = b.device
  sealed : ∀ e ∈ es, e.deviceEntry.sealing.payload = []

namespace Chronicle

theorem nil : Chronicle [] := by
  constructor <;> simp

theorem of_append_left {es ds : List Entry} (h : Chronicle (es ++ ds)) : Chronicle es where
  sorted := (pairwise_append.mp h.sorted).1
  seq_ne_zero e he := h.seq_ne_zero e (mem_append_left _ he)
  one_author a ha b hb := h.one_author a (mem_append_left _ ha) b (mem_append_left _ hb)
  sealed e he := h.sealed e (mem_append_left _ he)

variable {es : List Entry} {e : Entry}

theorem order_lt_last (h : Chronicle (es ++ [e])) {d : Entry} (hd : d ∈ es) : d.order < e.order :=
  (pairwise_append.mp h.sorted).2.2 d hd e (mem_singleton_self e)

theorem zero_lt_order (h : Chronicle es) (he : e ∈ es) : AdmissionOrder.zero < e.order := by
  rw [AdmissionOrder.lt_iff]
  exact Or.inl (Fin.pos_iff_ne_zero.mpr (h.seq_ne_zero e he))

/-- Positions identify the entries of a chronicle. -/
theorem eq_of_order_eq (h : Chronicle es) {a b : Entry} (ha : a ∈ es) (hb : b ∈ es)
    (heq : a.order = b.order) : a = b := by
  have hpw : es.Pairwise fun x y => x.order = y.order → x = y :=
    h.sorted.imp fun hlt he => absurd he hlt.ne
  have : Std.Symm fun x y : Entry => x.order = y.order → x = y :=
    ⟨fun _ _ hxy he => (hxy he.symm).symm⟩
  exact hpw.forall_of_forall (fun _ _ _ => rfl) ha hb heq

/-- Induction over a chronicle from its oldest entry. -/
theorem concat_induction {motive : List Entry → Prop} (hnil : motive [])
    (hconcat : ∀ es e, Chronicle (es ++ [e]) → motive es → motive (es ++ [e])) (h : Chronicle es) :
    motive es := by
  induction es using List.reverseRecOn with
  | nil => exact hnil
  | append_singleton es e ih => exact hconcat es e h (ih h.of_append_left)

end Chronicle

/-! ## Last point operations and resets -/

/-- Whether an entry is a point operation on a key. -/
def pointOn (key : Key) (e : Entry) : Bool := decide (e.mutation.pointKey = some key)

/-- The last point operation on a key. -/
def lastPoint (es : List Entry) (key : Key) : Option Entry := (es.filter (pointOn key)).getLast?

/-- Whether an entry is a range deletion that covers a range. -/
def resets (target : Range) (e : Entry) : Bool := (resetOrder target e).isSome

/-- The position of the newest range deletion that covers a range. -/
def newestReset (es : List Entry) (target : Range) : Option AdmissionOrder :=
  (es.filterMap (resetOrder target)).max?

@[simp] theorem lastPoint_nil (key : Key) : lastPoint [] key = none := rfl

theorem lastPoint_concat (es : List Entry) (e : Entry) (key : Key) :
    lastPoint (es ++ [e]) key = if pointOn key e then some e else lastPoint es key := by
  unfold lastPoint
  rw [filter_append]
  cases h : pointOn key e <;> simp [h]

theorem lastPoint_append (es ds : List Entry) (key : Key) :
    lastPoint (es ++ ds) key = (lastPoint ds key).or (lastPoint es key) := by
  induction ds using List.reverseRecOn with
  | nil => simp
  | append_singleton ds d ih =>
    rw [← append_assoc, lastPoint_concat, lastPoint_concat, ih]
    split <;> simp

variable {es : List Entry} {key : Key} {e : Entry}

theorem mem_of_lastPoint (h : lastPoint es key = some e) :
    e ∈ es ∧ e.mutation.pointKey = some key := by
  have hmem := mem_of_getLast? h
  rw [mem_filter] at hmem
  exact ⟨hmem.1, of_decide_eq_true hmem.2⟩

@[simp] theorem newestReset_nil (target : Range) : newestReset [] target = none := rfl

theorem newestReset_append (es ds : List Entry) (target : Range) :
    newestReset (es ++ ds) target = max (newestReset es target) (newestReset ds target) := by
  rw [newestReset, filterMap_append, max?_append]
  rfl

theorem newestReset_singleton (e : Entry) (target : Range) :
    newestReset [e] target = resetOrder target e := by
  unfold newestReset
  cases h : resetOrder target e <;> simp [h]

variable {target : Range} {o : AdmissionOrder}

theorem resetOrder_eq_some_iff : resetOrder target e = some o ↔
      ∃ range, e.mutation = .deleteRange range ∧ range.coversRange target = true ∧ e.order = o := by
  unfold resetOrder
  cases e.mutation with
  | set key value => simp
  | delete key => simp
  | deleteRange range => simp

/-- A position is beyond the newest reset when it is beyond every reset. -/
theorem newestReset_all_lt_iff :
    ((newestReset es target).all fun reset => decide (reset < o)) = true ↔
      ∀ e ∈ es, ∀ range, e.mutation = .deleteRange range →
        range.coversRange target = true → e.order < o := by
  unfold newestReset
  rw [max?_all_lt_iff]
  constructor
  · intro h e he range hm hc
    exact h e.order (mem_filterMap.mpr
      ⟨e, he, resetOrder_eq_some_iff.mpr ⟨range, hm, hc, rfl⟩⟩)
  · intro h o' ho'
    obtain ⟨e, he, hr⟩ := mem_filterMap.mp ho'
    obtain ⟨range, hm, hc, rfl⟩ := resetOrder_eq_some_iff.mp hr
    exact h e he range hm hc

/-- Every entry of a chronicle but the last is older than the last. -/
theorem newestReset_all_lt_last (h : Chronicle (es ++ [e])) (target : Range) :
    ((newestReset es target).all fun reset => decide (reset < e.order)) = true :=
  newestReset_all_lt_iff.mpr fun _ hd _ _ _ => h.order_lt_last hd

/-! ## The local reading of the replay -/

theorem newestReset_concat_of_none (h : resetOrder target e = none) :
    newestReset (es ++ [e]) target = newestReset es target := by
  rw [newestReset_append, newestReset_singleton, h]
  simp

theorem mem_of_newestReset (h : newestReset es target = some o) : ∃ e ∈ es, e.order = o := by
  obtain ⟨hmem, -⟩ := max?_eq_some_iff.mp h
  obtain ⟨e, he, hr⟩ := mem_filterMap.mp hmem
  obtain ⟨range, -, -, ho⟩ := resetOrder_eq_some_iff.mp hr
  exact ⟨e, he, ho⟩

/-- A covering range deletion at the end of a chronicle is the newest reset. -/
theorem newestReset_concat_of_some (h : Chronicle (es ++ [e])) (hr : resetOrder target e = some o) :
    newestReset (es ++ [e]) target = some e.order := by
  obtain ⟨range, -, -, rfl⟩ := resetOrder_eq_some_iff.mp hr
  rw [newestReset_append, newestReset_singleton, hr]
  cases hn : newestReset es target with
  | none => rfl
  | some o =>
    obtain ⟨d, hd, rfl⟩ := mem_of_newestReset hn
    exact congrArg some (max_eq_right (h.order_lt_last hd).le)

/-- Whether a point operation makes its key visible: it is a Set and newer than
every covering range deletion. -/
def shows (es : List Entry) (key : Key) (e : Entry) : Bool :=
  e.mutation.isSet && (newestReset es (.prefixed key)).all fun reset => decide (reset < e.order)

theorem shows_iff : shows es key e = true ↔ e.mutation.isSet = true ∧
      ∀ d ∈ es, ∀ range, d.mutation = .deleteRange range → range.coversKey key = true →
        d.order < e.order := by
  rw [shows, Bool.and_eq_true, newestReset_all_lt_iff]
  simp only [Range.coversRange_prefixed]

/-- The binding of a key in the replay: its last point operation, when it shows. -/
theorem get_replay (h : Chronicle es) (key : Key) :
    (replay es).get key = (lastPoint es key).filter (shows es key) := by
  refine Chronicle.concat_induction (motive := fun es =>
    (replay es).get key = (lastPoint es key).filter (shows es key)) rfl ?_ h
  · intro es e h ih
    rw [replay_concat, lastPoint_concat, applyEvent]
    have hshows : ∀ k, e.mutation.pointKey = some k → shows (es ++ [e]) key = shows es key := by
      intro k hk
      have hpoint : resetOrder (.prefixed key) e = none := by
        unfold resetOrder
        cases hm : e.mutation <;> simp_all [Mutation.pointKey]
      funext d
      rw [shows, shows, newestReset_concat_of_none hpoint]
    cases hm : e.mutation with
    | set k value =>
      have hpk : e.mutation.pointKey = some k := by rw [hm]; rfl
      rw [OrdMap.get_insert, ih, hshows k hpk]
      by_cases hk : key = k
      · subst hk
        have hself : shows es key e = true := by
          rw [shows, newestReset_all_lt_last h, hm]
          rfl
        simp [pointOn, hpk, Option.filter_some, hself]
      · have hne : ¬ k = key := fun hk' => hk hk'.symm
        simp [pointOn, hpk, hk, hne]
    | delete k =>
      have hpk : e.mutation.pointKey = some k := by rw [hm]; rfl
      rw [OrdMap.get_erase, ih, hshows k hpk]
      by_cases hk : key = k
      · subst hk
        have hself : shows es key e = false := by
          rw [shows, hm]
          rfl
        simp [pointOn, hpk, Option.filter_some, hself]
      · have hne : ¬ k = key := fun hk' => hk hk'.symm
        simp [pointOn, hpk, hk, hne]
    | deleteRange range =>
      have hpk : pointOn key e = false := by simp [pointOn, hm, Mutation.pointKey]
      rw [OrdMap.get_retain, ih, hpk, Option.filter_filter]
      simp only [Bool.false_eq_true, if_false]
      cases hlast : lastPoint es key with
      | none => rfl
      | some d =>
        have hd := mem_of_lastPoint hlast
        have hiff : (shows es key d && !range.coversKey key) = shows (es ++ [e]) key d := by
          rw [Bool.eq_iff_iff, Bool.and_eq_true, shows_iff, shows_iff]
          constructor
          · rintro ⟨⟨hset, hall⟩, hncov⟩
            refine ⟨hset, fun c hc r hr hcov => ?_⟩
            rcases mem_append.mp hc with hc | hc
            · exact hall c hc r hr hcov
            · -- the last entry is the range deletion that does not cover the key
              rw [mem_singleton.mp hc, hm] at hr
              cases hr
              rw [hcov] at hncov
              cases hncov
          · rintro ⟨hset, hall⟩
            refine ⟨⟨hset, fun c hc => hall c (mem_append_left _ hc)⟩, ?_⟩
            by_contra hcov
            have hlt := hall e (by simp) range hm (by simpa using hcov)
            exact lt_asymm hlt (h.order_lt_last hd.1)
        simp only [Option.filter_some, hiff]

/-- The last point operations of all keys. -/
def lastPoints (es : List Entry) : OrdMap Key Entry :=
  es.foldl (fun points e => e.mutation.pointKey.elim points fun key => points.insert key e)
    OrdMap.empty

theorem get_lastPoints (es : List Entry) (key : Key) :
    (lastPoints es).get key = lastPoint es key := by
  induction es using List.reverseRecOn with
  | nil => rfl
  | append_singleton es e ih =>
    rw [lastPoints, foldl_append, ← lastPoints, lastPoint_concat, ← ih]
    cases hk : e.mutation.pointKey with
    | none => simp [hk, pointOn]
    | some k =>
      by_cases hkey : key = k
      · simp [hk, pointOn, hkey]
      · have hne : ¬ k = key := fun h => hkey h.symm
        simp [hk, pointOn, OrdMap.get_insert, hkey, hne]

/-- The replay keeps the last point operations that show. -/
theorem replay_eq_retain (h : Chronicle es) : replay es = (lastPoints es).retain (shows es) := by
  refine OrdMap.ext_get fun key => ?_
  rw [get_replay h, OrdMap.get_retain, get_lastPoints]

/-- A key is visible with an entry exactly when that entry is its last point
operation, a Set, and no covering range deletion has a greater order. -/
theorem get_replay_eq_some_iff (h : Chronicle es) : (replay es).get key = some e ↔
      lastPoint es key = some e ∧ e.mutation.isSet = true ∧
        ∀ d ∈ es, ∀ range, d.mutation = .deleteRange range → range.coversKey key = true →
          ¬ e.order < d.order := by
  rw [get_replay h, Option.filter_eq_some_iff, shows_iff]
  refine and_congr_right fun hlast => and_congr_right fun hset => ?_
  have he := mem_of_lastPoint hlast
  refine forall_congr' fun d => forall_congr' fun hd => forall_congr' fun range =>
    forall_congr' fun hr => forall_congr' fun _ => ?_
  constructor
  · intro hlt
    exact lt_asymm hlt
  · intro hnlt
    rcases lt_trichotomy d.order e.order with hlt | heq | hgt
    · exact hlt
    · -- equal positions are the same entry, which is a point operation
      rw [h.eq_of_order_eq hd he.1 heq] at hr
      rw [hr] at hset
      cases hset
    · exact absurd hgt hnlt

/-! ## Counting visible keys -/

/-- A point operation changes the count of every range that covers its key by the
same amount. -/
theorem countUnder_point (live : OrdMap Key Entry) (hk : e.mutation.pointKey = some key)
    (range : Range) :
    (countUnder (applyEvent live e) range : Int) = countUnder live range +
      if range.coversKey key then
        (if e.mutation.isSet then 1 else 0) - (if (live.get key).isSome then 1 else 0)
      else 0 := by
  unfold applyEvent countUnder
  cases hm : e.mutation with
  | set k value =>
    rw [hm] at hk
    cases hk
    rw [OrdMap.count_insert]
    cases range.coversKey key <;> cases live.get key <;> simp [Mutation.isSet]
  | delete k =>
    rw [hm] at hk
    cases hk
    have h := live.count_erase key range.coversKey
    cases hc : range.coversKey key <;> cases hg : live.get key <;> simp_all [Mutation.isSet]
    omega
  | deleteRange r =>
    rw [hm] at hk
    cases hk

variable {range : Range}

/-- A range deletion takes its whole count out of a range that covers its target. -/
theorem countUnder_range_of_covers (live : OrdMap Key Entry) {target : Range}
    (hm : e.mutation = .deleteRange target) (hc : range.coversRange target = true) :
    countUnder (applyEvent live e) range + countUnder live target = countUnder live range := by
  simp only [applyEvent, hm, countUnder, OrdMap.count_retain]
  rw [live.count_split range.coversKey target.coversKey, Nat.add_comm]
  have : (fun k => range.coversKey k && target.coversKey k) = target.coversKey := by
    funext k
    cases ht : target.coversKey k with
    | false => simp
    | true => simp [Range.coversKey_of_coversRange hc ht]
  rw [this]

variable {live : OrdMap Key Entry}

/-- A range deletion empties every range it covers. -/
theorem countUnder_range_of_covered {target : Range} (hm : e.mutation = .deleteRange target)
    (hc : target.coversRange range = true) : countUnder (applyEvent live e) range = 0 := by
  simp only [applyEvent, hm, countUnder, OrdMap.count_retain, OrdMap.count_eq_zero_iff]
  intro k _ _
  cases hk : range.coversKey k with
  | false => simp
  | true => simp [Range.coversKey_of_coversRange hc hk]

/-- A range deletion leaves a range that does not overlap its target alone. -/
theorem countUnder_range_of_disjoint {target : Range} (hm : e.mutation = .deleteRange target)
    (hc : range.overlaps target = false) :
    countUnder (applyEvent live e) range = countUnder live range := by
  simp only [applyEvent, hm, countUnder, OrdMap.count_retain]
  congr 1
  funext k
  cases hk : range.coversKey k with
  | false => simp
  | true =>
    cases ht : target.coversKey k with
    | false => simp
    | true => rw [Range.overlaps_of_coversKey hk ht] at hc; cases hc

theorem countUnder_mono (live : OrdMap Key Entry) {a b : Range} (h : a.coversRange b = true) :
    countUnder live b ≤ countUnder live a :=
  live.count_mono fun _ hk => Range.coversKey_of_coversRange h hk

theorem length_listUnder (live : OrdMap Key Entry) (range : Range) :
    (listUnder live range).length = countUnder live range := by
  rw [listUnder, length_map, countUnder, OrdMap.count, countP_eq_length_filter]

end Homebase.Ledger
