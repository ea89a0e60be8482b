import Homebase.Core.Key

set_option autoImplicit false

/-!
# Core: the ordered byte store (`core/src/storage.rs`)

`Store` is the reference implementation `MemoryStore`: one ordered map of byte
strings.  `get`, `scan` and `apply` never fail there; `scan` panics on a start
above its end, as `BTreeMap::range` does, and that is the `none` of
`Store.scan`.  A map that never held an entry has no tree to search and compares
nothing; the server deletes rows of leases only, so no other store is empty.

`mem_scanPrefix_iff` is the exactness of prefix scans: the half-open interval
below `prefixSuccessor p` holds exactly the extensions of `p`.  The effect of an
atomic batch on one key is the last operation of the batch on that key
(`Store.get_apply`).
-/

namespace Homebase.Core

open Foundation List

/-! ## The successor of a prefix -/

/-- `*last += 1`. -/
def increment (last : U8) (h : last.val < 255) : U8 := ⟨last.val + 1, by omega⟩

/-- The loop of `prefix_successor` over the reversed prefix: drop trailing
`0xff` bytes, then increment the last one left. -/
def successorLoop : Bytes → Option Bytes
  | [] => none
  | last :: rest =>
      if h : last.val < 255 then some (increment last h :: rest)
      else successorLoop rest

/-- `prefix_successor`. -/
def prefixSuccessor (p : Bytes) : Option Bytes :=
  (successorLoop p.reverse).map reverse

/-- The loop reaches the first byte only when every later byte is `0xff`. -/
theorem successorLoop_concat (l : Bytes) (a : U8) :
    successorLoop (l ++ [a]) =
      match successorLoop l with
      | some e => some (e ++ [a])
      | none => successorLoop [a] := by
  induction l with
  | nil => rfl
  | cons last rest ih =>
    rw [cons_append, successorLoop, successorLoop]
    split
    · rfl
    · exact ih

theorem prefixSuccessor_cons (a : U8) (p : Bytes) :
    prefixSuccessor (a :: p) =
      match prefixSuccessor p with
      | some e => some (a :: e)
      | none => successorLoop [a] := by
  rw [prefixSuccessor, prefixSuccessor, reverse_cons, successorLoop_concat]
  cases successorLoop p.reverse with
  | none =>
    by_cases h : a.val < 255 <;> simp [successorLoop, h]
  | some e => simp

/-- A string extends `p` exactly when it lies at or above `p` and below the
successor of `p`, if there is one. -/
theorem isPrefix_iff_between (p s : Bytes) :
    p <+: s ↔ p ≤ s ∧ ∀ e, prefixSuccessor p = some e → s < e := by
  induction p generalizing s with
  | nil =>
    have hnone : prefixSuccessor [] = none := rfl
    simp [hnone, nil_le_list]
  | cons a p ih =>
    cases s with
    | nil => simp
    | cons c s =>
      rw [cons_prefix_cons, prefixSuccessor_cons, ih, cons_le_cons_iff_lex]
      cases hp : prefixSuccessor p with
      | some e =>
        simp only [Option.some.injEq, forall_eq', cons_lt_cons_iff]
        constructor
        · rintro ⟨rfl, hle, hlt⟩
          exact ⟨Or.inr ⟨rfl, hle⟩, Or.inr ⟨rfl, hlt⟩⟩
        · rintro ⟨hle, hlt⟩
          rcases hle with hac | ⟨rfl, hle⟩
          · rcases hlt with hca | ⟨rfl, -⟩
            · exact absurd (hac.trans hca) (lt_irrefl _)
            · exact absurd hac (lt_irrefl _)
          · rcases hlt with hlt | ⟨-, hlt⟩
            · exact absurd hlt (lt_irrefl _)
            · exact ⟨rfl, hle, hlt⟩
      | none =>
        simp only [reduceCtorEq, false_implies, implies_true, and_true]
        by_cases ha : a.val < 255
        · simp only [successorLoop, increment, dif_pos ha, Option.some.injEq, forall_eq',
            cons_lt_cons_iff, not_lt_nil, and_false, or_false, Fin.lt_def]
          constructor
          · rintro ⟨rfl, hle⟩
            exact ⟨Or.inr ⟨rfl, hle⟩, by omega⟩
          · rintro ⟨hac | ⟨rfl, hle⟩, hlt⟩
            · omega
            · exact ⟨rfl, hle⟩
        · simp only [successorLoop, dif_neg ha, reduceCtorEq, false_implies, implies_true,
            and_true]
          constructor
          · rintro ⟨rfl, hle⟩
            exact Or.inr ⟨rfl, hle⟩
          · rintro (hac | h)
            · have := c.isLt
              rw [Fin.lt_def] at hac
              omega
            · exact h

/-! ## Batches and the store -/

/-- A single mutation within a batch. -/
inductive Op where
  | put (key value : Bytes)
  | delete (key : Bytes)
  deriving DecidableEq

/-- `WriteBatch`: mutations applied in order, all or nothing. -/
structure WriteBatch where
  ops : List Op
  deriving DecidableEq

namespace WriteBatch

/-- `WriteBatch::new`. -/
def new : WriteBatch := ⟨[]⟩

/-- `WriteBatch::put`. -/
def put (batch : WriteBatch) (key value : Bytes) : WriteBatch :=
  ⟨batch.ops ++ [.put key value]⟩

/-- `WriteBatch::delete`. -/
def delete (batch : WriteBatch) (key : Bytes) : WriteBatch :=
  ⟨batch.ops ++ [.delete key]⟩

@[simp] theorem ops_put (batch : WriteBatch) (key value : Bytes) :
    (batch.put key value).ops = batch.ops ++ [.put key value] := rfl

@[simp] theorem ops_delete (batch : WriteBatch) (key : Bytes) :
    (batch.delete key).ops = batch.ops ++ [.delete key] := rfl

end WriteBatch

/-- `MemoryStore`. -/
abbrev Store : Type := OrdMap Bytes Bytes

namespace Store

/-- One mutation of `MemoryStore::apply`. -/
def applyOp (store : Store) : Op → Store
  | .put key value => store.insert key value
  | .delete key => store.erase key

/-- `OrderedStore::apply`. -/
def apply (store : Store) (batch : WriteBatch) : Store := batch.ops.foldl applyOp store

@[simp] theorem apply_put (store : Store) (batch : WriteBatch) (key value : Bytes) :
    store.apply (batch.put key value) = (store.apply batch).insert key value := by
  simp [apply, foldl_append, applyOp]

@[simp] theorem apply_delete (store : Store) (batch : WriteBatch) (key : Bytes) :
    store.apply (batch.delete key) = (store.apply batch).erase key := by
  simp [apply, foldl_append, applyOp]

@[simp] theorem apply_new (store : Store) : store.apply WriteBatch.new = store := rfl

/-- `OrderedStore::scan`; `none` is the panic on a start above the end.  A map that never held an
entry does not compare them, and the store of a space is not emptied again. -/
def scan (store : Store) (start : Bytes) (stop : Option Bytes) : Option (List (Bytes × Bytes)) :=
  if store.entries = [] ∨ ∀ e ∈ stop, start ≤ e then some (store.range start stop) else none

theorem scan_eq_some (store : Store) {start : Bytes} {stop : Option Bytes}
    (h : ∀ e ∈ stop, start ≤ e) : store.scan start stop = some (store.range start stop) :=
  if_pos (.inr h)

/-- `OrderedStore::scan_prefix`. -/
def scanPrefix (store : Store) (p : Bytes) : Option (List (Bytes × Bytes)) :=
  store.scan p (prefixSuccessor p)

/-- What one operation makes of a key, if it is on that key. -/
def opEffect (key : Bytes) : Op → Option (Option Bytes)
  | .put k v => if key = k then some (some v) else none
  | .delete k => if key = k then some none else none

/-- The operation of a batch that decides one key: the last one on it. -/
def lastWrite (key : Bytes) : List Op → Option (Option Bytes)
  | [] => none
  | op :: rest => (lastWrite key rest).or (opEffect key op)

@[simp] theorem lastWrite_nil (key : Bytes) : lastWrite key [] = none := rfl

theorem lastWrite_append (key : Bytes) (xs ys : List Op) :
    lastWrite key (xs ++ ys) = (lastWrite key ys).or (lastWrite key xs) := by
  induction xs with
  | nil => simp
  | cons op xs ih => rw [cons_append, lastWrite, lastWrite, ih, Option.or_assoc]

/-- A batch changes a key to what its last operation on it says. -/
theorem get_applyOps (ops : List Op) (store : Store) (key : Bytes) :
    (ops.foldl applyOp store).get key = (lastWrite key ops).getD (store.get key) := by
  induction ops generalizing store with
  | nil => rfl
  | cons op ops ih =>
    rw [foldl_cons, ih, lastWrite]
    cases lastWrite key ops with
    | some v => rfl
    | none =>
      cases op with
      | put k v => by_cases h : key = k <;> simp [applyOp, opEffect, OrdMap.get_insert, h]
      | delete k => by_cases h : key = k <;> simp [applyOp, opEffect, OrdMap.get_erase, h]

theorem get_apply (store : Store) (batch : WriteBatch) (key : Bytes) :
    (store.apply batch).get key = (lastWrite key batch.ops).getD (store.get key) :=
  get_applyOps batch.ops store key

/-- The key of an operation. -/
def opOn : Op → Bytes
  | .put key _ => key
  | .delete key => key

theorem lastWrite_eq_none {key : Bytes} {ops : List Op} (h : ∀ op ∈ ops, opOn op ≠ key) :
    lastWrite key ops = none := by
  induction ops with
  | nil => rfl
  | cons op ops ih =>
    have hne : key ≠ opOn op := (h op mem_cons_self).symm
    rw [lastWrite, ih fun op' hop => h op' (mem_cons_of_mem _ hop)]
    cases op <;> simp_all [opEffect, opOn]

theorem lastWrite_singleton_put (key key' value : Bytes) :
    lastWrite key [.put key' value] = if key = key' then some (some value) else none := rfl

/-- Writing out a map under an injective key encoding. -/
theorem lastWrite_puts {κ α : Type} [LinearOrder κ] (m : OrdMap κ α) {f : κ → Bytes}
    (hf : Function.Injective f) (g : α → Bytes) (k : κ) :
    lastWrite (f k) (m.entries.map fun p => .put (f p.1) (g p.2)) =
      (m.get k).map fun v => some (g v) := by
  rcases m with ⟨entries, hsorted⟩
  simp only [OrdMap.get]
  induction entries with
  | nil => rfl
  | cons p rest ih =>
    obtain ⟨hlt, hrest⟩ := pairwise_cons.mp hsorted
    rw [map_cons, lastWrite, ih hrest, OrdMap.lookup]
    by_cases hk : k = p.1
    · rw [if_pos hk, OrdMap.lookup_eq_none_of_lt (hk ▸ hlt)]
      simp [opEffect, hk]
    · rw [if_neg hk]
      simp [opEffect, hf.ne hk]

/-- A prefix scan never asks for an inverted range. -/
theorem scanPrefix_eq_some (store : Store) (p : Bytes) :
    store.scanPrefix p = some (store.range p (prefixSuccessor p)) :=
  store.scan_eq_some fun e he => (((isPrefix_iff_between p p).mp (prefix_refl p)).2 e he).le

variable {store : Store} {p : Bytes} {l : List (Bytes × Bytes)}

/-- A prefix scan yields exactly the entries whose key extends the prefix. -/
theorem mem_scanPrefix_iff (h : store.scanPrefix p = some l) {k v : Bytes} :
    (k, v) ∈ l ↔ store.get k = some v ∧ p <+: k := by
  rw [scanPrefix_eq_some] at h
  cases h
  rw [OrdMap.mem_range_iff, isPrefix_iff_between]

/-- A prefix scan yields its entries in key order. -/
theorem scanPrefix_sorted (h : store.scanPrefix p = some l) : l.Pairwise fun a b => a.1 < b.1 := by
  rw [scanPrefix_eq_some] at h
  cases h
  exact OrdMap.range_sorted store p _

end Store

end Homebase.Core
