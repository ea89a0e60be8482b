import Homebase.Foundation.Fixed

set_option autoImplicit false

/-!
# Core: bounds-checked reads (`core/src/reader.rs`)

A cursor over an immutable slice is the slice still unread.  Each read returns
its value with the rest, or `none` at a truncated input; `Reader::rest` is then
the remainder itself, and `Reader::end` is the test that it is empty.

Every lemma has the shape the record codecs need: reading what was just written,
in front of an arbitrary remainder, returns it and leaves the remainder.
-/

namespace Homebase.Core.Reader

open Foundation

/-- `Reader::u8`. -/
def u8 : Bytes → Option (U8 × Bytes)
  | [] => none
  | b :: rest => some (b, rest)

/-- `Reader::take`. -/
def take (len : Nat) (bytes : Bytes) : Option (Bytes × Bytes) :=
  if len ≤ bytes.length then some (bytes.take len, bytes.drop len) else none

/-- `Reader::u32`. -/
def u32 (bytes : Bytes) : Option (U32 × Bytes) :=
  (take 4 bytes).map fun p => (U32.ofNat (ofBE p.1), p.2)

/-- `Reader::u64`. -/
def u64 (bytes : Bytes) : Option (U64 × Bytes) :=
  (take 8 bytes).map fun p => (U64.ofNat (ofBE p.1), p.2)

/-- An array of a fixed length: `bytes16`, and `take(n)?.try_into().ok()?`. -/
def array (n : Nat) (bytes : Bytes) : Option (ByteArr n × Bytes) :=
  (take n bytes).bind fun p => (ByteArr.ofBytes n p.1).map fun a => (a, p.2)

@[simp] theorem u8_cons (b : U8) (rest : Bytes) : u8 (b :: rest) = some (b, rest) := rfl

theorem take_append {len : Nat} {word : Bytes} (h : word.length = len) (rest : Bytes) :
    take len (word ++ rest) = some (word, rest) := by
  subst h
  simp [take]

@[simp] theorem u32_append (v : U32) (rest : Bytes) :
    u32 (toBE 4 v.val ++ rest) = some (v, rest) := by
  have hlt : v.val < 256 ^ 4 := v.isLt
  rw [u32, take_append (length_toBE 4 v.val), Option.map_some, ofBE_toBE hlt, U32.ofNat_val]

@[simp] theorem u64_append (v : U64) (rest : Bytes) :
    u64 (toBE 8 v.val ++ rest) = some (v, rest) := by
  have hlt : v.val < 256 ^ 8 := v.isLt
  rw [u64, take_append (length_toBE 8 v.val), Option.map_some, ofBE_toBE hlt, U64.ofNat_val]

@[simp] theorem array_append {n : Nat} (a : ByteArr n) (rest : Bytes) :
    array n (a.bytes ++ rest) = some (a, rest) := by
  simp [array, take_append a.length_eq]

/-! The same facts in front of the rest of a decoder. -/

section Bind

variable {α : Type}

theorem u8_bind (b : U8) (rest : Bytes) (f : U8 × Bytes → Option α) :
    (u8 (b :: rest) >>= f) = f (b, rest) := rfl

theorem take_bind {len : Nat} {word : Bytes} (h : word.length = len) (rest : Bytes)
    (f : Bytes × Bytes → Option α) : (take len (word ++ rest) >>= f) = f (word, rest) := by
  rw [take_append h]
  rfl

theorem u32_bind (v : U32) (rest : Bytes) (f : U32 × Bytes → Option α) :
    (u32 (toBE 4 v.val ++ rest) >>= f) = f (v, rest) := by
  rw [u32_append]
  rfl

theorem u64_bind (v : U64) (rest : Bytes) (f : U64 × Bytes → Option α) :
    (u64 (toBE 8 v.val ++ rest) >>= f) = f (v, rest) := by
  rw [u64_append]
  rfl

theorem array_bind {n : Nat} (a : ByteArr n) (rest : Bytes) (f : ByteArr n × Bytes → Option α) :
    (array n (a.bytes ++ rest) >>= f) = f (a, rest) := by
  rw [array_append]
  rfl

end Bind

end Homebase.Core.Reader
