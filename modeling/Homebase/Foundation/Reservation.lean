import Mathlib

set_option autoImplicit false

/-!
# Foundation: reservations

Names are handed out from reserved sets of names.  What makes every name unique is an account of
three things: the names reserved so far, the sets that holders may still draw from, and the names
handed out.  A set may be reserved that was free, a name may be drawn from a set, and a holder may
be forgotten.
-/

namespace Homebase.Foundation

variable {N : Type}

/-- The sets that are held are reserved, apart from each other and from the names handed out, and
those are distinct. -/
structure Accounted (reserved : Set N) (held : List (Set N)) (handed : List N) : Prop where
  held_reserved : ∀ s ∈ held, s ⊆ reserved
  handed_reserved : ∀ n ∈ handed, n ∈ reserved
  disjoint : held.Pairwise Disjoint
  apart : ∀ s ∈ held, ∀ n ∈ handed, n ∉ s
  distinct : handed.Nodup

namespace Accounted

variable {reserved reserved' fresh s rest : Set N} {held held' : List (Set N)} {handed : List N}
  {n : N}

theorem empty : Accounted (∅ : Set N) [] [] where
  held_reserved := by simp
  handed_reserved := by simp
  disjoint := .nil
  apart := by simp
  distinct := List.nodup_nil

theorem perm (h : Accounted reserved held handed) (hperm : held.Perm held') :
    Accounted reserved held' handed where
  held_reserved := fun s hs => h.held_reserved s (hperm.mem_iff.mpr hs)
  handed_reserved := h.handed_reserved
  disjoint := hperm.pairwise h.disjoint fun hab => hab.symm
  apart := fun s hs => h.apart s (hperm.mem_iff.mpr hs)
  distinct := h.distinct

theorem mono (h : Accounted reserved held handed) (hkeep : reserved ⊆ reserved') :
    Accounted reserved' held handed where
  held_reserved := fun s hs => (h.held_reserved s hs).trans hkeep
  handed_reserved := fun n hn => hkeep (h.handed_reserved n hn)
  disjoint := h.disjoint
  apart := h.apart
  distinct := h.distinct

/-- Holders may be forgotten. -/
theorem forget (h : Accounted reserved held handed) (hsub : held'.Sublist held) :
    Accounted reserved held' handed where
  held_reserved := fun s hs => h.held_reserved s (hsub.mem hs)
  handed_reserved := h.handed_reserved
  disjoint := h.disjoint.sublist hsub
  apart := fun s hs => h.apart s (hsub.mem hs)
  distinct := h.distinct

/-- A free set may be reserved. -/
theorem reserve (h : Accounted reserved held handed) (hfree : ∀ n ∈ fresh, n ∉ reserved)
    (hfresh : fresh ⊆ reserved') (hkeep : reserved ⊆ reserved') :
    Accounted reserved' (fresh :: held) handed where
  held_reserved := by
    intro s hs
    rcases List.mem_cons.mp hs with rfl | hs
    · exact hfresh
    · exact (h.held_reserved s hs).trans hkeep
  handed_reserved := fun n hn => hkeep (h.handed_reserved n hn)
  disjoint := List.pairwise_cons.mpr
    ⟨fun s hs => Set.disjoint_left.mpr fun n hn hns => hfree n hn (h.held_reserved s hs hns),
      h.disjoint⟩
  apart := by
    intro s hs n hn hns
    rcases List.mem_cons.mp hs with rfl | hs
    · exact hfree n hns (h.handed_reserved n hn)
    · exact h.apart s hs n hn hns
  distinct := h.distinct

/-- A name may be drawn from a set that is held. -/
theorem take (h : Accounted reserved (s :: held) handed) (hn : n ∈ s) (hrest : rest ⊆ s)
    (hgone : n ∉ rest) : Accounted reserved (rest :: held) (handed ++ [n]) where
  held_reserved := by
    intro t ht
    rcases List.mem_cons.mp ht with rfl | ht
    · exact hrest.trans (h.held_reserved s List.mem_cons_self)
    · exact h.held_reserved t (List.mem_cons_of_mem _ ht)
  handed_reserved := by
    intro m hm
    rcases List.mem_append.mp hm with hm | hm
    · exact h.handed_reserved m hm
    · exact List.mem_singleton.mp hm ▸ h.held_reserved s List.mem_cons_self hn
  disjoint := by
    obtain ⟨hhead, htail⟩ := List.pairwise_cons.mp h.disjoint
    exact List.pairwise_cons.mpr ⟨fun t ht => (hhead t ht).mono_left hrest, htail⟩
  apart := by
    intro t ht m hm hmt
    rcases List.mem_append.mp hm with hm | hm
    · rcases List.mem_cons.mp ht with rfl | ht
      · exact h.apart s List.mem_cons_self m hm (hrest hmt)
      · exact h.apart t (List.mem_cons_of_mem _ ht) m hm hmt
    · obtain rfl := List.mem_singleton.mp hm
      rcases List.mem_cons.mp ht with rfl | ht
      · exact hgone hmt
      · exact Set.disjoint_left.mp ((List.pairwise_cons.mp h.disjoint).1 t ht) hn hmt
  distinct := by
    refine List.nodup_append.mpr ⟨h.distinct, List.nodup_singleton n, ?_⟩
    rintro m hm k hk rfl
    exact h.apart s List.mem_cons_self m hm (List.mem_singleton.mp hk ▸ hn)

end Accounted

/-- A list with one of its elements replaced, up to order. -/
theorem exists_perm_of_getElem? {α : Type} {l : List α} {i : Nat} {a : α} (h : l[i]? = some a) :
    ∃ rest, l.Perm (a :: rest) ∧ ∀ b, (l.set i b).Perm (b :: rest) := by
  obtain ⟨hi, rfl⟩ := List.getElem?_eq_some_iff.mp h
  refine ⟨l.take i ++ l.drop (i + 1), ?_, fun b => ?_⟩
  · conv_lhs => rw [← List.take_append_drop i l, List.drop_eq_getElem_cons hi]
    exact List.perm_middle
  · rw [List.set_eq_take_append_cons_drop, if_pos hi]
    exact List.perm_middle

end Homebase.Foundation
