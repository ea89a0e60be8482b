import Mathlib

set_option autoImplicit false

/-!
# Foundation: ordered forests

A forest is given by the children of every node; the children of `none` are its roots.  When
siblings stand in order and no node has two parents, a depth-first walk lists the nodes by the
words that lead to them from the roots, in the order of a dictionary.  So the place of a node
depends on its own word only, and not on the rest of the forest.
-/

namespace Homebase.Foundation

open List

variable {α : Type}

/-- The word of nodes from below `parent` down to a node. -/
inductive Descends (children : Option α → List α) : Option α → List α → α → Prop
  | here {parent : Option α} {node : α} (h : node ∈ children parent) :
    Descends children parent [node] node
  | through {parent : Option α} {child node : α} {word : List α} (h : child ∈ children parent)
    (hrest : Descends children (some child) word node) :
    Descends children parent (child :: word) node

/-- The nodes below `parent`, down to a depth, as a depth-first walk meets them. -/
def preorder (children : Option α → List α) : Nat → Option α → List α
  | 0, _ => []
  | depth + 1, parent =>
    (children parent).flatMap fun child => child :: preorder children depth (some child)

variable {children : Option α → List α} {parent : Option α} {node child : α} {word : List α}

namespace Descends

theorem snoc (h : Descends children parent word node) (hchild : child ∈ children (some node)) :
    Descends children parent (word ++ [child]) child := by
  induction h with
  | here h => exact .through h (.here hchild)
  | through h _ ih => exact .through h (ih hchild)

/-- The last step of a word. -/
theorem snoc_cases (h : Descends children parent word node) :
    word = [node] ∧ node ∈ children parent ∨
      ∃ front above, word = front ++ [node] ∧ Descends children parent front above
        ∧ node ∈ children (some above) := by
  induction h with
  | here h => exact .inl ⟨rfl, h⟩
  | @through parent child node word h hrest ih =>
    refine .inr ?_
    obtain ⟨rfl, hnode⟩ | ⟨front, above, rfl, hfront, hnode⟩ := ih
    · exact ⟨[child], child, rfl, .here h, hnode⟩
    · exact ⟨child :: front, above, rfl, .through h hfront, hnode⟩

/-- A word leads to each of its nodes on the way. -/
theorem front (h : Descends children parent word node) {passed : α} (hpassed : passed ∈ word) :
    ∃ front rest, word = front ++ rest ∧ Descends children parent front passed := by
  induction h with
  | @here parent node h =>
    rw [mem_singleton.mp hpassed]
    exact ⟨[node], [], rfl, .here h⟩
  | @through parent child node word h hrest ih =>
    obtain rfl | htail := mem_cons.mp hpassed
    · exact ⟨[passed], word, rfl, .here h⟩
    · obtain ⟨front, rest, rfl, hfront⟩ := ih htail
      exact ⟨child :: front, rest, rfl, .through h hfront⟩

/-- Nodes have one parent, so one word leads to a node from the roots. -/
theorem word_unique (hparent : ∀ node p q, node ∈ children p → node ∈ children q → p = q)
    {word word' : List α} (h : Descends children none word node)
    (h' : Descends children none word' node) : word = word' := by
  induction hlength : word.length generalizing word word' node with
  | zero =>
    rw [length_eq_zero_iff.mp hlength] at h
    exact absurd h nofun
  | succ length ih =>
    obtain ⟨rfl, hroot⟩ | ⟨front, above, rfl, hfront, hnode⟩ := h.snoc_cases
    · obtain ⟨rfl, -⟩ | ⟨front', above', rfl, -, hnode'⟩ := h'.snoc_cases
      · rfl
      · exact absurd (hparent _ _ _ hroot hnode') nofun
    · obtain ⟨rfl, hroot'⟩ | ⟨front', above', rfl, hfront', hnode'⟩ := h'.snoc_cases
      · exact absurd (hparent _ _ _ hnode hroot') nofun
      · have habove := Option.some.inj (hparent _ _ _ hnode hnode')
        subst habove
        rw [length_append, length_singleton] at hlength
        rw [ih hfront hfront' (by omega)]

theorem word_nodup (hparent : ∀ node p q, node ∈ children p → node ∈ children q → p = q)
    (h : Descends children none word node) : word.Nodup := by
  induction hlength : word.length generalizing word node with
  | zero => exact length_eq_zero_iff.mp hlength ▸ nodup_nil
  | succ length ih =>
    obtain ⟨rfl, -⟩ | ⟨front, above, rfl, hfront, hnode⟩ := h.snoc_cases
    · exact nodup_singleton node
    · rw [length_append, length_singleton] at hlength
      refine nodup_append.mpr ⟨ih hfront (by omega), nodup_singleton node, ?_⟩
      rintro passed hpassed _ hlast rfl
      rw [mem_singleton.mp hlast] at hpassed
      -- a node met twice would be reached by two words
      obtain ⟨short, rest, rfl, hshort⟩ := hfront.front hpassed
      have hsame := congrArg List.length (word_unique hparent h hshort)
      simp only [length_append, length_singleton] at hsame
      omega

end Descends

/-- The walk down to a depth meets the nodes with a word of that length. -/
theorem mem_preorder_iff {depth : Nat} :
    node ∈ preorder children depth parent ↔
      ∃ word, Descends children parent word node ∧ word.length ≤ depth := by
  induction depth generalizing parent with
  | zero =>
    refine iff_of_false not_mem_nil ?_
    rintro ⟨word, hword, hlength⟩
    rw [length_eq_zero_iff.mp (Nat.le_zero.mp hlength)] at hword
    exact absurd hword nofun
  | succ depth ih =>
    simp only [preorder, mem_flatMap, mem_cons, ih]
    constructor
    · rintro ⟨child, hchild, rfl | ⟨word, hword, hlength⟩⟩
      · exact ⟨[node], .here hchild, Nat.succ_le_succ (Nat.zero_le _)⟩
      · exact ⟨child :: word, .through hchild hword, Nat.succ_le_succ hlength⟩
    · rintro ⟨word, hword, hlength⟩
      cases hword with
      | here h => exact ⟨node, h, .inl rfl⟩
      | through h hrest => exact ⟨_, h, .inr ⟨_, hrest, Nat.le_of_succ_le_succ hlength⟩⟩

/-- What a word below a node becomes from the roots. -/
def Leads (children : Option α → List α) (start : List α) (parent : Option α) : Prop :=
  ∀ word node, Descends children parent word node → Descends children none (start ++ word) node

theorem Leads.down {start : List α} (h : Leads children start parent)
    (hchild : child ∈ children parent) : Leads children (start ++ [child]) (some child) := by
  intro word node hword
  rw [append_assoc]
  exact h _ _ (.through hchild hword)

section Order

variable [LinearOrder α]

/-- A node comes before another in the dictionary of words from the roots. -/
def Before (children : Option α → List α) (a b : α) : Prop :=
  ∃ word word', Descends children none word a ∧ Descends children none word' b ∧ word < word'

theorem Before.asymm (hparent : ∀ node p q, node ∈ children p → node ∈ children q → p = q)
    {a b : α} (h : Before children a b) : ¬ Before children b a := by
  rintro ⟨wordB, wordA, hb, ha, hlt⟩
  obtain ⟨wordA', wordB', ha', hb', hlt'⟩ := h
  rw [ha'.word_unique hparent ha, hb'.word_unique hparent hb] at hlt'
  exact lt_asymm hlt hlt'

theorem lt_append_cons (word rest : List α) (a : α) : word < word ++ a :: rest := by
  have h : word ++ [] < word ++ a :: rest := append_left_lt (nil_lt_cons a rest)
  rwa [append_nil] at h

/-- A depth-first walk is in the order of the dictionary. -/
theorem preorder_pairwise (hsorted : ∀ parent, (children parent).Pairwise (· < ·))
    {depth : Nat} {start : List α} (hleads : Leads children start parent) :
    (preorder children depth parent).Pairwise (Before children) := by
  induction depth generalizing parent start with
  | zero => exact List.Pairwise.nil
  | succ depth ih =>
    rw [preorder, pairwise_flatMap]
    constructor
    · intro child hchild
      refine pairwise_cons.mpr ⟨fun node hnode => ?_, ih (hleads.down hchild)⟩
      obtain ⟨word, hword, -⟩ := mem_preorder_iff.mp hnode
      refine ⟨_, _, hleads _ _ (.here hchild), hleads.down hchild _ _ hword, ?_⟩
      cases hword with
      | here | through => exact lt_append_cons _ _ _
    · refine List.Pairwise.imp_of_mem ?_ (hsorted parent)
      intro left right hleft hright hlt a ha b hb
      have hword : ∀ child ∈ children parent, ∀ x ∈ child :: preorder children depth (some child),
          ∃ word, Descends children none (start ++ child :: word) x := by
        intro child hchild x hx
        obtain rfl | hx := mem_cons.mp hx
        · exact ⟨[], hleads _ _ (.here hchild)⟩
        · obtain ⟨word, hword, -⟩ := mem_preorder_iff.mp hx
          exact ⟨word, hleads _ _ (.through hchild hword)⟩
      obtain ⟨wordA, hwordA⟩ := hword left hleft a ha
      obtain ⟨wordB, hwordB⟩ := hword right hright b hb
      exact ⟨_, _, hwordA, hwordB, append_left_lt (cons_lt_cons_iff.mpr (.inl hlt))⟩

end Order

end Homebase.Foundation
