import Homebase.Core.Reader
import Homebase.Foundation.Agree

set_option autoImplicit false

/-!
# Core: tagged fields (`core/src/reader.rs`, `core/src/writer.rs`)

A record is a sequence of fields, each with a tag of one byte and a length of four.  Every record
codec reads them with the same loop and a step of its own.  `readFields_written` is the rule of
round trips: reading what was written is folding the step over the fields.
`readFields_yields` is the rule of what a decoder accepts.
-/

namespace Homebase.Core

open Foundation List

/-- `Writer::field`, for a payload whose length fits. -/
def Writer.field (tag : U8) (payload : Bytes) : Bytes := tag :: (toBE 4 payload.length ++ payload)

/-- `Writer::field`, for one field after the other. -/
def Writer.fields (entries : List (U8 × Bytes)) : Bytes :=
  entries.flatMap fun entry => Writer.field entry.1 entry.2

/-- `Reader::field`: `some none` at the end of the input, `none` where a field is truncated. -/
def Reader.field (bytes : Bytes) : Option (Option ((U8 × Bytes) × Bytes)) :=
  if bytes = [] then some none
  else do
    let (tag, rest) ← Reader.u8 bytes
    let (length, rest) ← Reader.u32 rest
    let (value, rest) ← Reader.take length.val rest
    some (some ((tag, value), rest))

section Loop

variable {σ ε : Type}

/-- `while let Some((tag, value)) = reader.field()? { .. }`.  Every turn takes a byte or more. -/
def readFieldsLoop (truncated : ε) (step : σ → U8 × Bytes → Except ε σ) :
    Nat → σ → Bytes → Except ε σ
  | 0, s, _ => .ok s
  | fuel + 1, s, bytes =>
    match Reader.field bytes with
    | none => .error truncated
    | some none => .ok s
    | some (some (entry, rest)) => do
      let s ← step s entry
      readFieldsLoop truncated step fuel s rest

/-- The loop over a whole frame. -/
def readFields (truncated : ε) (step : σ → U8 × Bytes → Except ε σ) (s : σ) (frame : Bytes) :
    Except ε σ :=
  readFieldsLoop truncated step (frame.length + 1) s frame

end Loop

/-! ## Reading what was written -/

theorem Writer.length_field (tag : U8) (payload : Bytes) :
    (Writer.field tag payload).length = payload.length + 5 := by
  simp only [Writer.field, length_cons, length_append, length_toBE]
  omega

theorem Writer.length_fields_cons (entry : U8 × Bytes) (entries : List (U8 × Bytes)) :
    (Writer.fields (entry :: entries)).length =
      entry.2.length + 5 + (Writer.fields entries).length := by
  rw [Writer.fields, flatMap_cons, length_append, Writer.length_field]
  rfl

/-- A payload is shorter than the record it is in. -/
theorem Writer.length_lt_fields {entries : List (U8 × Bytes)} {entry : U8 × Bytes}
    (h : entry ∈ entries) : entry.2.length < (Writer.fields entries).length := by
  induction entries with
  | nil => cases h
  | cons first entries ih =>
    rw [Writer.length_fields_cons]
    obtain rfl | hmem := List.mem_cons.mp h
    · omega
    · have := ih hmem
      omega

theorem Writer.length_le_fields (entries : List (U8 × Bytes)) :
    entries.length ≤ (Writer.fields entries).length := by
  induction entries with
  | nil => exact Nat.zero_le _
  | cons first entries ih =>
    rw [Writer.length_fields_cons, length_cons]
    omega

theorem Reader.field_written (tag : U8) {payload : Bytes} (h : payload.length < 2 ^ 32)
    (rest : Bytes) :
    Reader.field (Writer.field tag payload ++ rest) = some (some ((tag, payload), rest)) := by
  have hlen : U32.ofNat payload.length = (⟨payload.length, h⟩ : U32) := Fin.ext (U32.val_ofNat h)
  rw [Reader.field, if_neg (by simp [Writer.field]), Writer.field, cons_append,
    append_assoc, Reader.u8_bind]
  have hu32 := Reader.u32_bind (⟨payload.length, h⟩ : U32) (payload ++ rest)
    fun p => do
      let (value, rest) ← Reader.take p.1.val p.2
      some (some ((tag, value), rest))
  rw [show toBE 4 payload.length = toBE 4 (⟨payload.length, h⟩ : U32).val from rfl]
  refine hu32.trans ?_
  rw [Reader.take_bind rfl]

section Loop

variable {σ ε : Type} {truncated : ε} {step : σ → U8 × Bytes → Except ε σ}
  {entries : List (U8 × Bytes)}

theorem readFieldsLoop_written (h : ∀ entry ∈ entries, entry.2.length < 2 ^ 32) {fuel : Nat}
    (hfuel : entries.length < fuel) (s : σ) :
    readFieldsLoop truncated step fuel s (Writer.fields entries) = entries.foldlM step s := by
  induction entries generalizing fuel s with
  | nil =>
    obtain ⟨fuel, rfl⟩ := Nat.exists_eq_succ_of_ne_zero (Nat.ne_of_gt hfuel)
    rfl
  | cons entry entries ih =>
    obtain ⟨fuel, rfl⟩ := Nat.exists_eq_succ_of_ne_zero (Nat.ne_zero_of_lt hfuel)
    rw [readFieldsLoop, Writer.fields, flatMap_cons,
      Reader.field_written entry.1 (h entry mem_cons_self), foldlM_cons]
    dsimp only
    congr 1
    funext t
    exact ih (fun entry hmem => h entry (mem_cons_of_mem _ hmem))
      (by rw [length_cons] at hfuel; omega) t

/-- Reading a record that was written, as long as it is not too long. -/
theorem readFields_written (h : (Writer.fields entries).length < 2 ^ 32) (s : σ) :
    readFields truncated step s (Writer.fields entries) = entries.foldlM step s := by
  refine readFieldsLoop_written (fun entry hmem => ?_) ?_ s
  · exact Nat.lt_trans (Writer.length_lt_fields hmem) h
  · have := Writer.length_le_fields entries
    omega

/-- What every field keeps, a record keeps. -/
theorem readFields_yields {s : σ} {frame : Bytes} {P : σ → Prop} (hs : P s)
    (hstep : ∀ s entry, P s → Yields P (step s entry)) :
    Yields P (readFields truncated step s frame) := by
  intro t h
  have hloop : ∀ fuel bytes s, P s → readFieldsLoop truncated step fuel s bytes = .ok t → P t := by
    intro fuel
    induction fuel with
    | zero =>
      intro bytes s hs h
      cases h
      exact hs
    | succ fuel ih =>
      intro bytes s hs h
      rw [readFieldsLoop] at h
      split at h
      · cases h
      · cases h
        exact hs
      · obtain ⟨u, hu, h⟩ := of_bind h
        exact ih _ u (hstep s _ hs u hu) h
  exact hloop _ _ s hs h

end Loop

/-! ## Repeated fields -/

/-- Fields of one tag are read and pushed to a list of the state, one by one. -/
theorem foldlM_push {ε σ α : Type} (put : σ → List α → σ) {step : σ → U8 × Bytes → Except ε σ}
    {tag : U8} {encode : α → Bytes} {decode : Bytes → Except ε α} (hnil : ∀ s, put s [] = s)
    (hcons : ∀ s x l, put (put s [x]) l = put s (x :: l))
    (hstep : ∀ s payload, step s (tag, payload) = decode payload >>= fun x => .ok (put s [x]))
    {l : List α} (h : ∀ x ∈ l, decode (encode x) = .ok x) (s : σ) :
    (l.map fun x => (tag, encode x)).foldlM step s = .ok (put s l) := by
  induction l generalizing s with
  | nil =>
    rw [hnil]
    rfl
  | cons x l ih =>
    rw [map_cons, foldlM_cons, hstep, h x mem_cons_self, ok_bind, ok_bind,
      ih (fun y hy => h y (mem_cons_of_mem _ hy)), hcons]

end Homebase.Core
