import Mathlib

set_option autoImplicit false

/-!
# Fixed-width integers, byte strings and big-endian words

The machine integers of the kernel are `Fin (2 ^ w)`; nothing below ever relies
on their wrapping addition.  Every addition of the source goes through
`U64.checkedAdd`, and a failed check is a panic of the caller.

A big-endian word of `w` bytes is a bijection between `Fin (256 ^ w)` and byte
strings of length `w`, and it preserves order.  The order fact is what turns a
byte-ordered scan into a scan by sequence number.
-/

namespace Homebase.Foundation

open List

/-- A byte. -/
abbrev U8 : Type := Fin 256
/-- `u16`. -/
abbrev U16 : Type := Fin (2 ^ 16)
/-- `u32`. -/
abbrev U32 : Type := Fin (2 ^ 32)
/-- `u64`. -/
abbrev U64 : Type := Fin (2 ^ 64)

/-- `Vec<u8>` and `&[u8]`. -/
abbrev Bytes : Type := List U8

-- Constants, so that no literal carries a proof of its own.
instance neZeroU8 : NeZero 256 := ⟨by decide⟩

instance neZeroU16 : NeZero (2 ^ 16) := ⟨by decide⟩

instance neZeroU32 : NeZero (2 ^ 32) := ⟨by decide⟩

instance neZeroU64 : NeZero (2 ^ 64) := ⟨by decide⟩

instance lawfulBEqU64 : LawfulBEq U64 := inferInstance

/-- The truncation of a natural number to `u64`; the identity below `2 ^ 64`. -/
def U64.ofNat (n : Nat) : U64 := Fin.ofNat (2 ^ 64) n

/-- The truncation of a natural number to `u32`; the identity below `2 ^ 32`. -/
def U32.ofNat (n : Nat) : U32 := Fin.ofNat (2 ^ 32) n

variable {n : Nat}

@[simp] theorem U64.val_ofNat (h : n < 2 ^ 64) : (U64.ofNat n).val = n :=
  Nat.mod_eq_of_lt h

@[simp] theorem U32.val_ofNat (h : n < 2 ^ 32) : (U32.ofNat n).val = n :=
  Nat.mod_eq_of_lt h

theorem U64.ofNat_val (n : U64) : U64.ofNat n.val = n :=
  Fin.ext (U64.val_ofNat n.isLt)

theorem U32.ofNat_val (n : U32) : U32.ofNat n.val = n :=
  Fin.ext (U32.val_ofNat n.isLt)

/-- `u64::try_from`. -/
def U64.tryFrom (n : Nat) : Option U64 :=
  if h : n < 2 ^ 64 then some ⟨n, h⟩ else none

/-- `u32::try_from`. -/
def U32.tryFrom (n : Nat) : Option U32 :=
  if h : n < 2 ^ 32 then some ⟨n, h⟩ else none

theorem U64.tryFrom_of_lt (h : n < 2 ^ 64) : U64.tryFrom n = some (U64.ofNat n) := by
  unfold U64.tryFrom
  rw [dif_pos h]
  exact congrArg some (Fin.ext (U64.val_ofNat h).symm)

theorem U32.tryFrom_of_lt (h : n < 2 ^ 32) : U32.tryFrom n = some (U32.ofNat n) := by
  unfold U32.tryFrom
  rw [dif_pos h]
  exact congrArg some (Fin.ext (U32.val_ofNat h).symm)

theorem U64.tryFrom_of_le (h : 2 ^ 64 ≤ n) : U64.tryFrom n = none := by
  unfold U64.tryFrom
  exact dif_neg (Nat.not_lt.mpr h)

theorem U32.tryFrom_of_le (h : 2 ^ 32 ≤ n) : U32.tryFrom n = none := by
  unfold U32.tryFrom
  exact dif_neg (Nat.not_lt.mpr h)

/-- `u64::checked_add`. -/
def U64.checkedAdd (a b : U64) : Option U64 := U64.tryFrom (a.val + b.val)

/-- `u64::saturating_add`. -/
def U64.saturatingAdd (a b : U64) : U64 :=
  if h : a.val + b.val < 2 ^ 64 then ⟨a.val + b.val, h⟩ else Fin.last _

/-- `u64::saturating_sub`. -/
def U64.saturatingSub (a b : U64) : U64 :=
  ⟨a.val - b.val, Nat.lt_of_le_of_lt (Nat.sub_le _ _) a.isLt⟩

/-- `u64::checked_sub`. -/
def U64.checkedSub (a b : U64) : Option U64 :=
  if b ≤ a then some (U64.saturatingSub a b) else none

/-- `u64::checked_add_signed`. -/
def U64.checkedAddSigned (a : U64) (delta : Int) : Option U64 :=
  if 0 ≤ (a.val : Int) + delta then U64.tryFrom ((a.val : Int) + delta).toNat else none

variable {m : Nat}

/-- A signed step between two naturals, the first of which is a word. -/
theorem U64.checkedAddSigned_ofNat {n : Nat} {delta : Int} (hn : n < 2 ^ 64)
    (h : (m : Int) = n + delta) : (U64.ofNat n).checkedAddSigned delta = U64.tryFrom m := by
  unfold U64.checkedAddSigned
  rw [U64.val_ofNat hn, ← h, if_pos (Int.natCast_nonneg m), Int.toNat_natCast]

theorem U64.checkedSub_ofNat {n : Nat} (hn : n < 2 ^ 64) (h : m ≤ n) :
    U64.checkedSub (U64.ofNat n) (U64.ofNat m) = some (U64.ofNat (n - m)) := by
  have hm : m < 2 ^ 64 := lt_of_le_of_lt h hn
  have hle : U64.ofNat m ≤ U64.ofNat n := by
    rw [Fin.le_def, U64.val_ofNat hm, U64.val_ofNat hn]
    exact h
  rw [U64.checkedSub, if_pos hle]
  refine congrArg some (Fin.ext ?_)
  rw [U64.val_ofNat (by omega)]
  simp only [U64.saturatingSub, U64.val_ofNat hm, U64.val_ofNat hn]

@[simp] theorem U64.val_saturatingSub (a b : U64) :
    (U64.saturatingSub a b).val = a.val - b.val := rfl

theorem U64.val_saturatingAdd (a b : U64) :
    (U64.saturatingAdd a b).val = min (a.val + b.val) (2 ^ 64 - 1) := by
  unfold U64.saturatingAdd
  split
  · rename_i h
    exact (Nat.min_eq_left (by omega)).symm
  · rename_i h
    exact (Nat.min_eq_right (by omega)).symm

variable {a b c : U64}

theorem U64.checkedAdd_eq_some (h : U64.checkedAdd a b = some c) : c.val = a.val + b.val := by
  unfold U64.checkedAdd U64.tryFrom at h
  split at h
  · cases h
    rfl
  · cases h

theorem U64.checkedAdd_of_lt (h : a.val + b.val < 2 ^ 64) :
    U64.checkedAdd a b = some ⟨a.val + b.val, h⟩ := by
  unfold U64.checkedAdd U64.tryFrom
  exact dif_pos h

theorem U64.checkedSub_eq_some (h : U64.checkedSub a b = some c) : c.val + b.val = a.val := by
  unfold U64.checkedSub at h
  split at h
  next hle =>
    cases h
    have hval : b.val ≤ a.val := hle
    rw [U64.val_saturatingSub]
    omega
  · cases h

/-! ## Big-endian words -/

/-- The `w` big-endian bytes of `n`, as `to_be_bytes` writes them. -/
def toBE : Nat → Nat → Bytes
  | 0, _ => []
  | w + 1, n => toBE w (n / 256) ++ [Fin.ofNat 256 n]

/-- The value of a big-endian byte string, as `from_be_bytes` reads it. -/
def ofBE (bs : Bytes) : Nat := bs.foldl (fun acc b => acc * 256 + b.val) 0

@[simp] theorem length_toBE (w n : Nat) : (toBE w n).length = w := by
  induction w generalizing n with
  | zero => rfl
  | succ w ih => simp [toBE, ih]

@[simp] theorem ofBE_concat (bs : Bytes) (b : U8) :
    ofBE (bs ++ [b]) = ofBE bs * 256 + b.val := by
  simp [ofBE, foldl_append]

variable {w : Nat}

/-- Reading a word back gives the value written. -/
theorem ofBE_toBE {n : Nat} (h : n < 256 ^ w) : ofBE (toBE w n) = n := by
  induction w generalizing n with
  | zero =>
    have : n = 0 := by simpa using h
    subst this
    rfl
  | succ w ih =>
    have hdiv : n / 256 < 256 ^ w :=
      Nat.div_lt_of_lt_mul (by rw [pow_succ] at h; omega)
    rw [toBE, ofBE_concat, ih hdiv]
    simp only [Fin.val_ofNat]
    omega

theorem toBE_injective {n : Nat} (hn : n < 256 ^ w) (hm : m < 256 ^ w) (h : toBE w n = toBE w m) :
    n = m := by
  rw [← ofBE_toBE hn, ← ofBE_toBE hm, h]

/-! ## Lexicographic order of byte strings -/

section Lex

variable {α : Type} [LinearOrder α]

theorem nil_le_list (s : List α) : [] ≤ s := not_lt.mp (not_lt_nil s)

variable {s t : List α}

theorem cons_le_cons_iff_lex {a b : α} : a :: s ≤ b :: t ↔ a < b ∨ a = b ∧ s ≤ t := by
  rw [← not_lt, cons_lt_cons_iff, not_or, not_and, not_lt, not_lt]
  constructor
  · rintro ⟨hab, hst⟩
    rcases hab.lt_or_eq with h | rfl
    · exact Or.inl h
    · exact Or.inr ⟨rfl, hst rfl⟩
  · rintro (h | ⟨rfl, h⟩)
    · exact ⟨h.le, fun heq => absurd heq.symm h.ne⟩
    · exact ⟨le_refl _, fun _ => h⟩

/-- A shared head is irrelevant to lexicographic order. -/
theorem append_lt_append_iff (p s t : List α) : p ++ s < p ++ t ↔ s < t := by
  induction p with
  | nil => rfl
  | cons a p ih => simp only [cons_append, cons_lt_cons_iff, lt_self_iff_false,
      true_and, false_or, ih]

/-- The first difference decides, whatever follows it. -/
theorem lt_append_of_lt_of_length_eq (h : s < t) (hlen : s.length = t.length) (x y : List α) :
    s ++ x < t ++ y := by
  induction s generalizing t with
  | nil =>
    cases t with
    | nil => exact absurd h (lt_irrefl _)
    | cons b t => simp at hlen
  | cons a s ih =>
    cases t with
    | nil => simp at hlen
    | cons b t =>
      simp only [cons_append, cons_lt_cons_iff] at h ⊢
      rcases h with h | ⟨rfl, h⟩
      · exact Or.inl h
      · exact Or.inr ⟨rfl, ih h (by simpa using hlen)⟩

/-- A string precedes every proper extension of itself. -/
theorem lt_append_of_ne_nil (s : List α) (h : t ≠ []) : s < s ++ t := by
  have hpos : ([] : List α) < t := by
    cases t with
    | nil => exact absurd rfl h
    | cons a t => exact nil_lt_cons a t
  simpa using (append_lt_append_iff s [] t).mpr hpos

theorem le_append_self (s t : List α) : s ≤ s ++ t := by
  cases t with
  | nil => simp
  | cons a t => exact (lt_append_of_ne_nil s (cons_ne_nil a t)).le

end Lex

/-- Big-endian words of one width are ordered as their values. -/
theorem toBE_lt_toBE {n : Nat} (hm : m < 256 ^ w) (h : n < m) : toBE w n < toBE w m := by
  induction w generalizing n m with
  | zero =>
    have : m = 0 := by simpa using hm
    omega
  | succ w ih =>
    have hdiv : m / 256 < 256 ^ w :=
      Nat.div_lt_of_lt_mul (by rw [pow_succ] at hm; omega)
    rw [toBE, toBE]
    rcases Nat.lt_or_ge (n / 256) (m / 256) with hlt | hge
    · exact lt_append_of_lt_of_length_eq (ih hdiv hlt) (by simp) _ _
    · have heq : n / 256 = m / 256 := by omega
      rw [heq, append_lt_append_iff]
      simp only [cons_lt_cons_iff, Fin.lt_def, Fin.val_ofNat]
      exact Or.inl (by omega)

/-! ## Byte arrays of a fixed length -/

/-- `[u8; n]`. -/
structure ByteArr (n : Nat) where
  bytes : Bytes
  length_eq : bytes.length = n
  deriving DecidableEq

namespace ByteArr

theorem ext {n : Nat} {a b : ByteArr n} (h : a.bytes = b.bytes) : a = b := by
  cases a; cases b; cases h; rfl

/-- `[byte; n]`. -/
def filled (n : Nat) (byte : U8) : ByteArr n := ⟨List.replicate n byte, length_replicate⟩

/-- `[0; n]`. -/
def zero (n : Nat) : ByteArr n := filled n 0

/-- `try_into` from a slice: the lengths must agree. -/
def ofBytes (n : Nat) (bs : Bytes) : Option (ByteArr n) :=
  if h : bs.length = n then some ⟨bs, h⟩ else none

@[simp] theorem ofBytes_bytes {n : Nat} (a : ByteArr n) : ofBytes n a.bytes = some a := by
  simp [ofBytes, a.length_eq]

instance {n : Nat} : LinearOrder (ByteArr n) :=
  LinearOrder.lift' ByteArr.bytes fun _ _ h => ByteArr.ext h

end ByteArr

end Homebase.Foundation
