import Homebase.Foundation.OrdMap

set_option autoImplicit false

/-!
# Core: tuple keys and their flat encoding (`core/src/key.rs`)

A key is a nonempty tuple of nonempty byte strings.  `KeyComponent` and `Key`
carry the limits of the source as fields, so the `expect` calls that rebuild a
prefix of a valid key have nothing left to check (`Key.takeComponents`).

The flat form escapes `0x00` as `0x00 0x01` and ends every component with
`0x00 0x00`.  Two components that differ are ordered before either encoding ends
(`encodeComponent_append_lt`); order preservation, injectivity and the
correspondence of tuple prefixes with byte prefixes all follow from that one
fact.
-/

namespace Homebase.Core

open Foundation List

/-- `MAX_COMPONENTS`. -/
def maxComponents : Nat := 256
/-- `MAX_COMPONENT_LEN`, which is `u16::MAX`. -/
def maxComponentLen : Nat := 65535
/-- `MAX_ENCODED_KEY_LEN`. -/
def maxEncodedKeyLen : Nat := 1024 * 1024

/-- Key validation errors. -/
inductive KeyError where
  | empty
  | emptyComponent
  | tooManyComponents (len : Nat)
  | componentTooLong (len : Nat)
  | encodedTooLong (len : Nat)
  deriving DecidableEq

/-- Errors decoding a flat-encoded key. -/
inductive DecodeError where
  | truncated
  | invalidEscape (offset : Nat) (byte : U8)
  | invalidKey (error : KeyError)
  deriving DecidableEq

/-- A single validated key component. -/
structure KeyComponent where
  bytes : Bytes
  ne_nil : bytes ≠ []
  length_le : bytes.length ≤ maxComponentLen
  deriving DecidableEq

namespace KeyComponent

variable {a b : KeyComponent}

theorem ext (h : a.bytes = b.bytes) : a = b := by
  cases a; cases b; cases h; rfl

/-- `KeyComponent::new`. -/
def new (bytes : Bytes) : Except KeyError KeyComponent :=
  if hne : bytes = [] then .error .emptyComponent
  else if hlen : maxComponentLen < bytes.length then .error (.componentTooLong bytes.length)
  else .ok ⟨bytes, hne, Nat.not_lt.mp hlen⟩

@[simp] theorem new_bytes (c : KeyComponent) : new c.bytes = .ok c := by
  simp [new, c.ne_nil, Nat.not_lt.mpr c.length_le]

theorem oneByte_ne_nil (a : U8) : List.replicate 1 a ≠ [] := by simp

theorem oneByte_length_le (a : U8) : (List.replicate 1 a).length ≤ maxComponentLen := by
  simp [maxComponentLen]

/-- A component of one byte. -/
def ofByte (a : U8) : KeyComponent :=
  ⟨List.replicate 1 a, oneByte_ne_nil a, oneByte_length_le a⟩

/-- Components compare as their bytes, which is what `derive(Ord)` gives. -/
instance : LinearOrder KeyComponent :=
  LinearOrder.lift' KeyComponent.bytes fun _ _ h => KeyComponent.ext h

theorem lt_iff : a < b ↔ a.bytes < b.bytes := Iff.rfl

end KeyComponent

/-! ## The flat encoding -/

/-- The escaped form of one byte. -/
def escape (b : U8) : Bytes := if b = 0 then [0, 1] else [b]

/-- One component: its escaped bytes and the terminator. -/
def encodeComponent (c : KeyComponent) : Bytes := c.bytes.flatMap escape ++ [0, 0]

/-- `encode_components`. -/
def encodeComponents (components : List KeyComponent) : Bytes :=
  components.flatMap encodeComponent

/-- `encoded_components_len`. -/
def encodedComponentsLen (components : List KeyComponent) : Nat :=
  components.foldl
    (fun total c => total + c.bytes.foldl (fun len b => len + ((if b = 0 then 1 else 0) + 1)) 2) 0

@[simp] theorem encodeComponents_nil : encodeComponents [] = [] := rfl

@[simp] theorem encodeComponents_cons (c : KeyComponent) (cs : List KeyComponent) :
    encodeComponents (c :: cs) = encodeComponent c ++ encodeComponents cs := rfl

@[simp] theorem encodeComponents_append (cs ds : List KeyComponent) :
    encodeComponents (cs ++ ds) = encodeComponents cs ++ encodeComponents ds :=
  flatMap_append

theorem encodeComponent_ne_nil (c : KeyComponent) : encodeComponent c ≠ [] := by
  simp [encodeComponent]

/-- Escaped and terminated strings that differ are ordered before either ends. -/
theorem escaped_append_lt {s t : Bytes} (h : s < t) (x y : Bytes) :
    s.flatMap escape ++ ([0, 0] ++ x) < t.flatMap escape ++ ([0, 0] ++ y) := by
  induction s generalizing t with
  | nil =>
    cases t with
    | nil => exact absurd h (lt_irrefl _)
    | cons b t =>
      by_cases hb : b = 0
      · subst hb
        simp [escape, cons_lt_cons_iff]
      · have hpos : (0 : U8) < b := Fin.pos_of_ne_zero hb
        simp [escape, hb, cons_lt_cons_iff, hpos]
  | cons a s ih =>
    cases t with
    | nil => exact absurd h (not_lt_nil _)
    | cons b t =>
      rcases cons_lt_cons_iff.mp h with hab | ⟨rfl, hst⟩
      · have hb : b ≠ 0 := fun hb => absurd (hb ▸ hab) (Fin.not_lt_zero a)
        by_cases ha : a = 0
        · subst ha
          simp [escape, hb, cons_lt_cons_iff, hab]
        · simp [escape, ha, hb, cons_lt_cons_iff, hab]
      · simp only [flatMap_cons, append_assoc]
        exact (append_lt_append_iff _ _ _).mpr (ih hst)

/-- Encoded components that differ are ordered whatever follows them. -/
theorem encodeComponent_append_lt {c d : KeyComponent} (h : c < d) (x y : Bytes) :
    encodeComponent c ++ x < encodeComponent d ++ y := by
  simpa [encodeComponent] using escaped_append_lt (KeyComponent.lt_iff.mp h) x y

variable {cs ds : List KeyComponent}

/-- The encoding preserves the order of tuples. -/
theorem encodeComponents_lt (h : cs < ds) : encodeComponents cs < encodeComponents ds := by
  induction cs generalizing ds with
  | nil =>
    cases ds with
    | nil => exact absurd h (lt_irrefl _)
    | cons d ds =>
      have := lt_append_of_ne_nil ([] : Bytes)
        (t := encodeComponents (d :: ds)) (by simp [encodeComponent_ne_nil])
      simpa using this
  | cons c cs ih =>
    cases ds with
    | nil => exact absurd h (not_lt_nil _)
    | cons d ds =>
      rw [encodeComponents_cons, encodeComponents_cons]
      rcases cons_lt_cons_iff.mp h with hcd | ⟨rfl, hrest⟩
      · exact encodeComponent_append_lt hcd _ _
      · exact (append_lt_append_iff _ _ _).mpr (ih hrest)

theorem encodeComponents_lt_iff : encodeComponents cs < encodeComponents ds ↔ cs < ds := by
  constructor
  · intro h
    rcases lt_trichotomy cs ds with hlt | rfl | hgt
    · exact hlt
    · exact absurd h (lt_irrefl _)
    · exact absurd (h.trans (encodeComponents_lt hgt)) (lt_irrefl _)
  · exact encodeComponents_lt

/-- The encoding is injective on tuples. -/
theorem encodeComponents_injective : Function.Injective encodeComponents := by
  intro cs ds h
  rcases lt_trichotomy cs ds with hlt | heq | hgt
  · exact absurd (h ▸ encodeComponents_lt hlt) (lt_irrefl _)
  · exact heq
  · exact absurd (h ▸ encodeComponents_lt hgt) (lt_irrefl _)

/-- Tuple prefixes are exactly byte prefixes of the encodings. -/
theorem encodeComponents_isPrefix_iff :
    encodeComponents cs <+: encodeComponents ds ↔ cs <+: ds := by
  constructor
  · intro h
    induction cs generalizing ds with
    | nil => exact nil_prefix
    | cons c cs ih =>
      obtain ⟨tail, htail⟩ := h
      cases ds with
      | nil =>
        exfalso
        have := congrArg List.length htail
        simp [encodeComponent] at this
      | cons d ds =>
        rw [encodeComponents_cons, encodeComponents_cons, append_assoc] at htail
        rcases lt_trichotomy c d with hlt | rfl | hgt
        · have := encodeComponent_append_lt hlt (encodeComponents cs ++ tail) (encodeComponents ds)
          rw [htail] at this
          exact absurd this (lt_irrefl _)
        · have hrest := append_cancel_left htail
          exact (cons_prefix_cons.mpr ⟨rfl, ih ⟨tail, hrest⟩⟩)
        · have := encodeComponent_append_lt hgt (encodeComponents ds) (encodeComponents cs ++ tail)
          rw [htail] at this
          exact absurd this (lt_irrefl _)
  · rintro ⟨tail, rfl⟩
    exact ⟨encodeComponents tail, (encodeComponents_append cs tail).symm⟩

/-! ## Decoding -/

/-- `push_component_byte`. -/
def pushComponentByte (current : Bytes) (byte : U8) : Except DecodeError Bytes :=
  if current.length = maxComponentLen then
    .error (.invalidKey (.componentTooLong (current.length + 1)))
  else .ok (current ++ [byte])

/-- The loop of `decode_components`, at byte `offset` with the component read so
far in `current`. -/
def decodeLoop (offset : Nat) : Bytes → Bytes → List KeyComponent → Bool →
    Except DecodeError (List KeyComponent)
  | [], _, components, atBoundary =>
      -- The source also asks for a nonempty input; an empty one leaves the flag set.
      if !atBoundary then .error .truncated else .ok components
  | b :: rest, current, components, _ =>
      if b = 0 then
        match rest with
        | [] => .error .truncated
        | c :: rest =>
            if c = 0 then
              match KeyComponent.new current with
              | .error e => .error (.invalidKey e)
              | .ok component => decodeLoop (offset + 2) rest [] (components ++ [component]) true
            else if c = 1 then
              match pushComponentByte current 0 with
              | .error e => .error e
              | .ok current => decodeLoop (offset + 2) rest current components false
            else .error (.invalidEscape offset c)
      else
        match pushComponentByte current b with
        | .error e => .error e
        | .ok current => decodeLoop (offset + 1) rest current components false

/-- `decode_components`. -/
def decodeComponents (bytes : Bytes) : Except DecodeError (List KeyComponent) :=
  decodeLoop 0 bytes [] [] true

theorem decodeLoop_cons_of_ne_zero (offset : Nat) {b : U8} (hb : b ≠ 0)
    (rest current : Bytes) (components : List KeyComponent) (atBoundary : Bool) :
    decodeLoop offset (b :: rest) current components atBoundary =
      match pushComponentByte current b with
      | .error e => .error e
      | .ok current => decodeLoop (offset + 1) rest current components false := by
  rw [decodeLoop.eq_def]
  simp only [if_neg hb]

/-- The loop reads the rest of one encoded component. -/
theorem decodeLoop_escaped (offset : Nat) (s rest current : Bytes)
    (components : List KeyComponent) (atBoundary : Bool) (c : KeyComponent)
    (hc : current ++ s = c.bytes) :
    decodeLoop offset (s.flatMap escape ++ ([0, 0] ++ rest)) current components atBoundary =
      decodeLoop (offset + (s.flatMap escape).length + 2) rest [] (components ++ [c]) true := by
  induction s generalizing offset current atBoundary with
  | nil =>
    have hcur : current = c.bytes := by simpa using hc
    simp [decodeLoop, hcur]
  | cons b s ih =>
    have hpush : pushComponentByte current b = .ok (current ++ [b]) := by
      have hlen := congrArg List.length hc
      have hle := c.length_le
      simp only [length_append, length_cons] at hlen
      rw [pushComponentByte, if_neg (by omega)]
    have hc' : (current ++ [b]) ++ s = c.bytes := by simpa using hc
    by_cases hb : b = 0
    · subst hb
      have h := ih (offset + 2) (current ++ [0]) false hc'
      simp only [flatMap_cons, escape, if_true, cons_append, nil_append,
        decodeLoop, hpush, one_ne_zero, if_false, length_cons] at h ⊢
      rw [h]
      congr 1
      omega
    · have h := ih (offset + 1) (current ++ [b]) false hc'
      simp only [flatMap_cons, escape, if_neg hb, cons_append, nil_append,
        length_cons] at h ⊢
      rw [decodeLoop_cons_of_ne_zero offset hb]
      simp only [hpush]
      rw [h]
      congr 1
      omega

theorem decodeLoop_encodeComponents (offset : Nat) (cs components : List KeyComponent) :
    decodeLoop offset (encodeComponents cs) [] components true = .ok (components ++ cs) := by
  induction cs generalizing offset components with
  | nil => simp [decodeLoop]
  | cons c cs ih =>
    have h := decodeLoop_escaped offset c.bytes (encodeComponents cs) [] components true c rfl
    rw [encodeComponents_cons, encodeComponent, append_assoc, h, ih]
    simp

/-- Decoding an encoded tuple returns it. -/
@[simp] theorem decodeComponents_encodeComponents (cs : List KeyComponent) :
    decodeComponents (encodeComponents cs) = .ok cs := by
  simpa [decodeComponents] using decodeLoop_encodeComponents 0 cs []

/-- What the loop accepts is the encoding of what it returns.  A component is pending in `current`
exactly when the flag is down. -/
theorem encodeComponents_of_decodeLoop {offset : Nat} {bytes current : Bytes}
    {components result : List KeyComponent} {atBoundary : Bool}
    (h : decodeLoop offset bytes current components atBoundary = .ok result)
    (hcurrent : atBoundary = true → current = []) :
    encodeComponents result = encodeComponents components ++ (current.flatMap escape ++ bytes) := by
  fun_induction decodeLoop offset bytes current components atBoundary with
  | case1 => cases h
  | case2 offset current components atBoundary hboundary =>
    cases h
    simp [hcurrent (by simpa using hboundary)]
  | case3 => cases h
  | case4 => cases h
  | case5 offset current components atBoundary rest component hnew ih =>
    have hbytes : component.bytes = current := by
      unfold KeyComponent.new at hnew
      split at hnew
      · cases hnew
      split at hnew
      · cases hnew
      · cases hnew
        rfl
    rw [ih h fun _ => rfl, encodeComponents_append]
    simp [encodeComponent, hbytes]
  | case6 => cases h
  | case7 offset current components atBoundary rest current' hpush hne ih =>
    rw [pushComponentByte] at hpush
    split at hpush
    · cases hpush
    · cases hpush
      rw [ih h nofun]
      simp [escape]
  | case8 => cases h
  | case9 => cases h
  | case10 offset b rest current components atBoundary hb current' hpush ih =>
    rw [pushComponentByte] at hpush
    split at hpush
    · cases hpush
    · cases hpush
      rw [ih h nofun]
      simp [escape, hb]

/-- Decoding accepts exactly the encodings. -/
theorem decodeComponents_eq_ok_iff {bytes : Bytes} {cs : List KeyComponent} :
    decodeComponents bytes = .ok cs ↔ encodeComponents cs = bytes := by
  constructor
  · intro h
    simpa using encodeComponents_of_decodeLoop h fun _ => rfl
  · rintro rfl
    exact decodeComponents_encodeComponents cs

/-! ## Keys -/

/-- A validated tuple key. -/
structure Key where
  components : List KeyComponent
  ne_nil : components ≠ []
  count_le : components.length ≤ maxComponents
  encoded_le : encodedComponentsLen components ≤ maxEncodedKeyLen
  deriving DecidableEq

/-- The budget of a tuple is the length of its flat form. -/
theorem encodedComponentsLen_eq (cs : List KeyComponent) :
    encodedComponentsLen cs = (encodeComponents cs).length := by
  have hbyte : ∀ (s : Bytes) (n : Nat),
      s.foldl (fun len b => len + ((if b = 0 then 1 else 0) + 1)) n =
        n + (s.flatMap escape).length := by
    intro s
    induction s with
    | nil => intro n; simp
    | cons b s ih =>
      intro n
      rw [foldl_cons, ih, flatMap_cons, length_append]
      by_cases hb : b = 0 <;> simp [escape, hb] <;> omega
  have hloop : ∀ (cs : List KeyComponent) (n : Nat),
      cs.foldl (fun total c => total +
        c.bytes.foldl (fun len b => len + ((if b = 0 then 1 else 0) + 1)) 2) n =
        n + (encodeComponents cs).length := by
    intro cs
    induction cs with
    | nil => intro n; simp
    | cons c cs ih =>
      intro n
      rw [foldl_cons, ih, hbyte, encodeComponents_cons, length_append,
        encodeComponent, length_append]
      simp only [length_cons, length_nil]
      omega
  simpa [encodedComponentsLen] using hloop cs 0

namespace Key

variable {a b : Key}

theorem ext (h : a.components = b.components) : a = b := by
  cases a; cases b; cases h; rfl

/-- `Key::new`. -/
def new (components : List KeyComponent) : Except KeyError Key :=
  if hne : components = [] then .error .empty
  else if hcount : maxComponents < components.length then
    .error (.tooManyComponents components.length)
  else if hlen : maxEncodedKeyLen < encodedComponentsLen components then
    .error (.encodedTooLong (encodedComponentsLen components))
  else .ok ⟨components, hne, Nat.not_lt.mp hcount, Nat.not_lt.mp hlen⟩

@[simp] theorem new_components (k : Key) : new k.components = .ok k := by
  simp [new, k.ne_nil, Nat.not_lt.mpr k.count_le, Nat.not_lt.mpr k.encoded_le]

/-- `Key` compares component-wise, which is what `derive(Ord)` gives. -/
instance : LinearOrder Key :=
  LinearOrder.lift' Key.components fun _ _ h => Key.ext h

theorem lt_iff : a < b ↔ a.components < b.components := Iff.rfl

/-- `Key::starts_with`. -/
def startsWith (k prefixKey : Key) : Bool := prefixKey.components.isPrefixOf k.components

variable {k : Key}

theorem startsWith_iff {p : Key} : k.startsWith p = true ↔ p.components <+: k.components :=
  isPrefixOf_iff_prefix

@[simp] theorem startsWith_self (k : Key) : k.startsWith k = true :=
  startsWith_iff.mpr (prefix_refl _)

theorem startsWith_trans {c : Key} (hab : a.startsWith b = true) (hbc : b.startsWith c = true) :
    a.startsWith c = true :=
  startsWith_iff.mpr ((startsWith_iff.mp hbc).trans (startsWith_iff.mp hab))

theorem startsWith_antisymm (hab : a.startsWith b = true) (hba : b.startsWith a = true) : a = b :=
  Key.ext ((startsWith_iff.mp hba).eq_of_length_le (startsWith_iff.mp hab).length_le)

/-- Two prefixes of one key are comparable. -/
theorem startsWith_or (ha : k.startsWith a = true) (hb : k.startsWith b = true) :
    a.startsWith b = true ∨ b.startsWith a = true := by
  rw [startsWith_iff, startsWith_iff]
  exact ( prefix_or_prefix_of_prefix (startsWith_iff.mp ha) (startsWith_iff.mp hb)).symm

/-- `Key::encode`. -/
def encode (k : Key) : Bytes := encodeComponents k.components

/-- `Key::decode`. -/
def decode (bytes : Bytes) : Except DecodeError Key :=
  if maxEncodedKeyLen < bytes.length then
    .error (.invalidKey (.encodedTooLong bytes.length))
  else
    match decodeComponents bytes with
    | .error e => .error e
    | .ok components =>
        match new components with
        | .error e => .error (.invalidKey e)
        | .ok key => .ok key

@[simp] theorem decode_encode (k : Key) : decode k.encode = .ok k := by
  have hlen : ¬ maxEncodedKeyLen < (encodeComponents k.components).length := by
    have := k.encoded_le
    rw [encodedComponentsLen_eq] at this
    exact Nat.not_lt.mpr this
  simp [decode, encode, hlen]

/-- `Key::decode` accepts exactly the encodings of keys. -/
theorem decode_eq_ok_iff {bytes : Bytes} : decode bytes = .ok k ↔ k.encode = bytes := by
  constructor
  · intro h
    unfold decode at h
    split at h
    · cases h
    split at h
    · cases h
    rename_i components hcomponents
    have hnew : new components = .ok k := by
      cases hnew : new components with
      | error e =>
        rw [hnew] at h
        cases h
      | ok key =>
        rw [hnew] at h
        cases h
        rfl
    have hkey : k.components = components := by
      unfold new at hnew
      split at hnew
      · cases hnew
      split at hnew
      · cases hnew
      split at hnew
      · cases hnew
      · cases hnew
        rfl
    rw [encode, hkey]
    exact decodeComponents_eq_ok_iff.mp hcomponents
  · rintro rfl
    exact decode_encode k

theorem encode_injective : Function.Injective encode := by
  intro a b h
  exact Key.ext (encodeComponents_injective h)

/-- The first `n` components.  A nonempty prefix of a valid key is valid, which
is what the `expect` at every such call of the source states. -/
def takeComponents (k : Key) (n : Nat) (hn : 0 < n) : Key where
  components := k.components.take n
  ne_nil := by
    intro h
    rcases take_eq_nil_iff.mp h with h | h
    · omega
    · exact k.ne_nil h
  count_le := (length_take_le' n _).trans k.count_le
  encoded_le := by
    have hle := k.encoded_le
    rw [encodedComponentsLen_eq] at hle ⊢
    refine le_trans ?_ hle
    obtain ⟨tail, htail⟩ := encodeComponents_isPrefix_iff.mpr ( take_prefix n k.components)
    rw [← htail, length_append]
    omega

/-- Every component-wise ancestor of a key, the key itself last. -/
def ancestors (k : Key) : List Key :=
  (List.finRange k.components.length).map fun i =>
    k.takeComponents (i.val + 1) (Nat.succ_pos _)

theorem mem_ancestors_iff : a ∈ k.ancestors ↔ k.startsWith a = true := by
  rw [ancestors, mem_map, startsWith_iff]
  constructor
  · rintro ⟨i, -, rfl⟩
    exact take_prefix _ _
  · intro h
    have hpos : 0 < a.components.length := length_pos_of_ne_nil a.ne_nil
    refine ⟨⟨a.components.length - 1, ?_⟩, mem_finRange _, Key.ext ?_⟩
    · have := h.length_le
      omega
    · show k.components.take (a.components.length - 1 + 1) = a.components
      rw [Nat.sub_add_cancel hpos]
      exact (prefix_iff_eq_take.mp h).symm

theorem ancestors_nodup (k : Key) : k.ancestors.Nodup := by
  refine (nodup_finRange _).map_on ?_
  intro i _ j _ h
  have := congrArg (fun a : Key => a.components.length) h
  simp only [takeComponents, length_take] at this
  exact Fin.ext (by omega)

theorem encodedComponentsLen_ofByte_le (a b : U8) :
    encodedComponentsLen [.ofByte a, .ofByte b] ≤ maxEncodedKeyLen := by
  simp only [encodedComponentsLen, KeyComponent.ofByte, List.replicate, foldl_cons,
    foldl_nil, maxEncodedKeyLen]
  split <;> split <;> omega

/-- A key of two components, a single byte each. -/
def ofTwoBytes (a b : U8) : Key :=
  ⟨[.ofByte a, .ofByte b], by simp, by simp [maxComponents], encodedComponentsLen_ofByte_le a b⟩

/-- A key of one component, a single byte. -/
def ofByte (a : U8) : Key := (ofTwoBytes a a).takeComponents 1 Nat.one_pos

end Key

end Homebase.Core
