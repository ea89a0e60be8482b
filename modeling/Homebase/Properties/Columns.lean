import Homebase.Foundation.Forest
import Homebase.Foundation.Machine
import Homebase.Multilite.Columns

set_option autoImplicit false

/-!
# The order of columns is stable and convergent

The catalog of a table is a tree of columns, and `column_order` walks it depth first.  The place
of a column depends on its chain of predecessors only, and no transition changes the chain of a
column that is already there.
-/

namespace Homebase.Multilite

open Foundation List
open OrdMap (get_insert mem_entries_iff)

namespace ColumnNodes

/-! ## Chains of predecessors -/

/-- The predecessors of a column, from itself back to the first column of the table. -/
inductive Chain (nodes : ColumnNodes) : ColumnId → List ColumnId → Prop
  | root {column : ColumnId} {node : ColumnNode} (h : nodes.get column = some node)
    (hroot : node.predecessor = none) : Chain nodes column [column]
  | next {column predecessor : ColumnId} {node : ColumnNode} {chain : List ColumnId}
    (h : nodes.get column = some node) (hnext : node.predecessor = some predecessor)
    (hchain : Chain nodes predecessor chain) : Chain nodes column (column :: chain)

/-- The catalog of a table: every column goes back to the one root. -/
structure Rooted (nodes : ColumnNodes) : Prop where
  chained : ∀ column node, nodes.get column = some node → ∃ chain, nodes.Chain column chain
  root : ∃ column, nodes.children none = [column]

/-- No column is lost, and none gets another predecessor. -/
def Extends (nodes nodes' : ColumnNodes) : Prop :=
  ∀ column node, nodes.get column = some node →
    ∃ node', nodes'.get column = some node' ∧ node'.predecessor = node.predecessor

section Chains

variable {nodes nodes' : ColumnNodes} {column : ColumnId} {chain : List ColumnId}

theorem mem_children {parent : Option ColumnId} :
    column ∈ nodes.children parent ↔
      ∃ node, nodes.get column = some node ∧ node.predecessor = parent := by
  simp only [children, mem_map, mem_filter, decide_eq_true_eq, Prod.exists,
    mem_entries_iff, exists_and_right, exists_eq_right]

theorem children_sorted (parent : Option ColumnId) :
    (nodes.children parent).Pairwise (· < ·) :=
  pairwise_map.mpr (nodes.sorted.filter _)

theorem parent_unique (column : ColumnId) (p q : Option ColumnId) (hp : column ∈ nodes.children p)
    (hq : column ∈ nodes.children q) : p = q := by
  obtain ⟨node, hnode, rfl⟩ := mem_children.mp hp
  obtain ⟨node', hnode', rfl⟩ := mem_children.mp hq
  rw [Option.some.inj (hnode.symm.trans hnode')]

theorem Chain.node (h : nodes.Chain column chain) : ∃ node, nodes.get column = some node := by
  cases h with
  | root h | next h => exact ⟨_, h⟩

theorem Chain.descends (h : nodes.Chain column chain) :
    Descends nodes.children none chain.reverse column := by
  induction h with
  | root h hroot => exact .here (mem_children.mpr ⟨_, h, hroot⟩)
  | next h hnext _ ih =>
    rw [reverse_cons]
    exact ih.snoc (mem_children.mpr ⟨_, h, hnext⟩)

variable {word : List ColumnId}

theorem chain_of_descends (h : Descends nodes.children none word column) :
    nodes.Chain column word.reverse := by
  induction hlength : word.length generalizing word column with
  | zero =>
    rw [length_eq_zero_iff.mp hlength] at h
    exact absurd h nofun
  | succ length ih =>
    obtain ⟨rfl, hroot⟩ | ⟨front, above, rfl, hfront, hnode⟩ := h.snoc_cases
    · obtain ⟨node, hget, hroot⟩ := mem_children.mp hroot
      exact .root hget hroot
    · obtain ⟨node, hget, hnext⟩ := mem_children.mp hnode
      rw [length_append, length_singleton] at hlength
      rw [reverse_append, reverse_singleton]
      exact .next hget hnext (ih hfront (by omega))

/-- A chain is the word of a column, read backwards. -/
theorem descends_iff :
    Descends nodes.children none word column ↔ nodes.Chain column word.reverse := by
  refine ⟨chain_of_descends, fun h => ?_⟩
  have hword := h.descends
  rwa [reverse_reverse] at hword

theorem Chain.unique {chain' : List ColumnId} (h : nodes.Chain column chain)
    (h' : nodes.Chain column chain') : chain = chain' :=
  reverse_injective (h.descends.word_unique parent_unique h'.descends)

/-- The chain of a column stays as it is. -/
theorem Chain.extend (hextends : nodes.Extends nodes') (h : nodes.Chain column chain) :
    nodes'.Chain column chain := by
  induction h with
  | root h hroot =>
    obtain ⟨node', hnode', hsame⟩ := hextends _ _ h
    exact .root hnode' (hsame.trans hroot)
  | next h hnext _ ih =>
    obtain ⟨node', hnode', hsame⟩ := hextends _ _ h
    exact .next hnode' (hsame.trans hnext) ih

/-- A chain is no longer than the catalog. -/
theorem Chain.length_le (h : nodes.Chain column chain) : chain.length ≤ nodes.entries.length := by
  have hnodup := h.descends.word_nodup parent_unique
  have hsub : chain.reverse ⊆ nodes.entries.map Prod.fst := by
    intro passed hpassed
    obtain ⟨front, rest, -, hfront⟩ := h.descends.front hpassed
    obtain ⟨node, hnode⟩ := (chain_of_descends hfront).node
    exact mem_map.mpr ⟨_, mem_entries_iff.mpr hnode, rfl⟩
  have hle := (hnodup.subperm hsub).length_le
  rwa [length_reverse, length_map] at hle

end Chains

/-! ## The walk -/

/-- The active columns as the walk meets them. -/
def linear (nodes : ColumnNodes) : List ColumnId :=
  (preorder nodes.children (nodes.entries.length + 1) none).filter nodes.active

section Walk

variable {nodes : ColumnNodes}

/-- What a walk of these columns leaves behind. -/
def Trail.walked (nodes : ColumnNodes) (trail : Trail) (columns : List ColumnId) : Trail :=
  ⟨trail.visited ++ columns, trail.active ++ columns.filter nodes.active⟩

theorem Trail.walked_meet (trail : Trail) (column : ColumnId) (columns : List ColumnId) :
    (trail.meet nodes column).walked nodes columns = trail.walked nodes (column :: columns) := by
  rw [Trail.walked, Trail.walked, Trail.meet]
  refine congrArg₂ Trail.mk (append_cons _ _ _).symm ?_
  rw [filter_cons]
  split
  · exact (append_cons _ _ _).symm
  · rfl

theorem Trail.walked_append (trail : Trail) (columns rest : List ColumnId) :
    (trail.walked nodes columns).walked nodes rest = trail.walked nodes (columns ++ rest) := by
  simp only [Trail.walked, append_assoc, filter_append]

variable {depth : Nat} {trail : Trail}

/-- The loop over siblings, when the walk below each of them succeeds. -/
theorem visit_siblings {siblings : List ColumnId}
    (hvisit : ∀ column ∈ siblings, ∀ trail : Trail,
      (trail.visited ++ preorder nodes.children depth (some column)).Nodup →
      nodes.visit depth (some column) trail =
        .ok (trail.walked nodes (preorder nodes.children depth (some column))))
    (hfresh : (trail.visited ++ siblings.flatMap fun column =>
      column :: preorder nodes.children depth (some column)).Nodup) :
    siblings.foldlM (fun trail column =>
        if column ∈ trail.visited then .error .cycle
        else nodes.visit depth (some column) (trail.meet nodes column)) trail =
      .ok (trail.walked nodes (siblings.flatMap fun column =>
        column :: preorder nodes.children depth (some column))) := by
  induction siblings generalizing trail with
  | nil =>
    simp only [foldlM_nil, flatMap_nil, Trail.walked, append_nil, filter_nil]
    rfl
  | cons column siblings ih =>
    rw [flatMap_cons] at hfresh ⊢
    have hnew : column ∉ trail.visited := fun hmem =>
      (nodup_append.mp hfresh).2.2 column hmem column (mem_cons_self ..) rfl
    rw [← append_assoc] at hfresh
    have hbelow : ((trail.meet nodes column).visited
        ++ preorder nodes.children depth (some column)).Nodup := by
      rw [Trail.meet, ← append_cons]
      exact (nodup_append.mp hfresh).1
    rw [foldlM_cons, if_neg hnew, hvisit column (mem_cons_self ..) _ hbelow, ok_bind,
      Trail.walked_meet, ih (fun other hother => hvisit other (mem_cons_of_mem _ hother)) hfresh,
      Trail.walked_append]

variable {parent : Option ColumnId}

/-- A walk deep enough that meets no column twice succeeds. -/
theorem visit_eq (hpos : 0 < depth)
    (hdeep : ∀ word column, Descends nodes.children parent word column → word.length < depth)
    (hfresh : (trail.visited ++ preorder nodes.children depth parent).Nodup) :
    nodes.visit depth parent trail =
      .ok (trail.walked nodes (preorder nodes.children depth parent)) := by
  induction depth generalizing parent trail with
  | zero => exact absurd hpos (lt_irrefl 0)
  | succ depth ih =>
    rw [visit]
    refine visit_siblings (fun column hcolumn trail hfresh => ih ?_ ?_ hfresh) hfresh
    · exact Nat.lt_of_succ_lt_succ (hdeep _ _ (.here hcolumn))
    · intro word below hword
      exact Nat.lt_of_succ_lt_succ (hdeep _ _ (.through hcolumn hword))

/-- The walk is in the order of the chains. -/
theorem walk_pairwise (nodes : ColumnNodes) (depth : Nat) :
    (preorder nodes.children depth none).Pairwise (Before nodes.children) := by
  have hleads : Leads nodes.children [] none := fun _ _ h => h
  exact preorder_pairwise children_sorted hleads

theorem walk_nodup (nodes : ColumnNodes) (depth : Nat) :
    (preorder nodes.children depth none).Nodup :=
  (walk_pairwise nodes depth).imp fun h heq => (heq ▸ h).asymm parent_unique (heq ▸ h)

variable {column : ColumnId}

theorem mem_walk (h : nodes.Rooted) :
    column ∈ preorder nodes.children (nodes.entries.length + 1) none ↔
      ∃ node, nodes.get column = some node := by
  rw [mem_preorder_iff]
  constructor
  · rintro ⟨word, hword, -⟩
    exact (chain_of_descends hword).node
  · rintro ⟨node, hnode⟩
    obtain ⟨chain, hchain⟩ := h.chained column node hnode
    refine ⟨chain.reverse, hchain.descends, ?_⟩
    rw [length_reverse]
    exact hchain.length_le.trans (Nat.le_succ _)

theorem active_iff :
    nodes.active column = true ↔ ∃ node, nodes.get column = some node ∧ node.active = true := by
  rw [active, Option.any_eq_true]

theorem linear_nodup (nodes : ColumnNodes) : nodes.linear.Nodup :=
  (walk_nodup nodes _).filter _

theorem mem_linear (h : nodes.Rooted) : column ∈ nodes.linear ↔ nodes.active column = true := by
  rw [linear, mem_filter, mem_walk h]
  refine ⟨And.right, fun hactive => ⟨?_, hactive⟩⟩
  obtain ⟨node, hnode, -⟩ := active_iff.mp hactive
  exact ⟨node, hnode⟩

theorem linear_pairwise (nodes : ColumnNodes) :
    nodes.linear.Pairwise (Before nodes.children) :=
  (walk_pairwise nodes _).filter _

theorem predecessorsKnown_of_rooted (h : nodes.Rooted) : nodes.predecessorsKnown = true := by
  refine all_eq_true.mpr fun node hnode => ?_
  obtain ⟨column, hcolumn⟩ := OrdMap.mem_values_iff.mp hnode
  obtain ⟨chain, hchain⟩ := h.chained column node hcolumn
  cases hchain with
  | root hget hroot =>
    rw [Option.some.inj (hcolumn.symm.trans hget), hroot]
    rfl
  | next hget hnext hrest =>
    obtain ⟨before, hbefore⟩ := hrest.node
    rw [Option.some.inj (hcolumn.symm.trans hget), hnext]
    rw [Option.all_some, OrdMap.contains, hbefore]
    rfl

/-- The walk from the root. -/
theorem visit_root (nodes : ColumnNodes) :
    nodes.visit (nodes.entries.length + 1) none ⟨[], []⟩ =
      .ok ⟨preorder nodes.children (nodes.entries.length + 1) none, nodes.linear⟩ := by
  refine visit_eq (Nat.succ_pos _) (fun word column hword => ?_) (walk_nodup nodes _)
  have hle := (chain_of_descends hword).length_le
  rw [length_reverse] at hle
  exact Nat.lt_succ_of_le hle

/-- `column_order` succeeds on the catalog of a table with an active column. -/
theorem columnOrder_eq (h : nodes.Rooted) (hactive : ∃ column, nodes.active column = true) :
    nodes.columnOrder = .ok nodes.linear := by
  obtain ⟨root, hroot⟩ := h.root
  have hlength : (preorder nodes.children (nodes.entries.length + 1) none).length =
      nodes.entries.length := by
    have hkeys : (nodes.entries.map Prod.fst).Nodup :=
      (pairwise_map.mpr nodes.sorted).imp fun hlt => ne_of_lt hlt
    refine (List.Perm.length_eq ?_).trans (length_map Prod.fst)
    refine (perm_ext_iff_of_nodup (walk_nodup nodes _) hkeys).mpr fun column => ?_
    rw [mem_walk h]
    simp only [mem_map, Prod.exists, mem_entries_iff, exists_and_right,
      exists_eq_right]
  have hempty : nodes.entries.isEmpty = false := by
    obtain ⟨node, hnode, -⟩ := mem_children.mp (hroot ▸ mem_singleton.mpr rfl)
    exact isEmpty_eq_false_iff_exists_mem.mpr ⟨_, mem_entries_iff.mpr hnode⟩
  have hnonempty : nodes.linear.isEmpty = false := by
    obtain ⟨column, hcolumn⟩ := hactive
    exact isEmpty_eq_false_iff_exists_mem.mpr ⟨column, (mem_linear h).mpr hcolumn⟩
  rw [columnOrder, if_neg (by rw [hempty]; exact nofun),
    if_neg (by rw [predecessorsKnown_of_rooted h]; exact nofun),
    if_neg (by rw [hroot]; exact not_not.mpr rfl), visit_root, ok_bind, if_neg]
  rintro (hlong | hnone)
  · exact hlong hlength
  · rw [hnonempty] at hnone
    exact absurd hnone nofun

/-- The columns met so far are met once, and from the root. -/
def Trail.Reached (nodes : ColumnNodes) (trail : Trail) : Prop :=
  trail.visited.Nodup
    ∧ ∀ column ∈ trail.visited, ∃ word, Descends nodes.children none word column

theorem Trail.Reached.meet (h : trail.Reached nodes) (hnew : column ∉ trail.visited)
    (hword : ∃ word, Descends nodes.children none word column) :
    (trail.meet nodes column).Reached nodes := by
  refine ⟨nodup_append.mpr ⟨h.1, nodup_singleton _, ?_⟩, fun other hother => ?_⟩
  · rintro other hother _ hlast rfl
    exact hnew (mem_singleton.mp hlast ▸ hother)
  · obtain hold | hlast := mem_append.mp hother
    · exact h.2 other hold
    · exact mem_singleton.mp hlast ▸ hword

theorem visit_reached {trail' : Trail}
    (hparent : ∀ child ∈ nodes.children parent, ∃ word, Descends nodes.children none word child)
    (hreached : trail.Reached nodes) (h : nodes.visit depth parent trail = .ok trail') :
    trail'.Reached nodes := by
  induction depth generalizing parent trail trail' with
  | zero => exact absurd h nofun
  | succ depth ih =>
    refine foldlM_invariant (Trail.Reached nodes) (fun trail column next hcolumn htrail hstep => ?_)
      hreached h
    split at hstep
    · exact absurd hstep nofun
    case isFalse hnew =>
      obtain ⟨word, hword⟩ := hparent column hcolumn
      exact ih (fun child hchild => ⟨_, hword.snoc hchild⟩) (htrail.meet hnew ⟨word, hword⟩) hstep

variable {order : List ColumnId}

/-- `column_order` succeeds on nothing but the catalog of a table. -/
theorem rooted_of_columnOrder (h : nodes.columnOrder = .ok order) :
    nodes.Rooted ∧ order ≠ []
      ∧ ∃ visited, nodes.visit (nodes.entries.length + 1) none ⟨[], []⟩ = .ok ⟨visited, order⟩ := by
  rw [columnOrder] at h
  split at h
  · exact absurd h nofun
  split at h
  · exact absurd h nofun
  split at h
  · exact absurd h nofun
  case isFalse.isFalse.isFalse hroot =>
    obtain ⟨trail, hvisit, h⟩ := of_bind h
    split at h
    · exact absurd h nofun
    case isFalse hcovers =>
      rw [not_or, not_not] at hcovers
      rw [not_not] at hroot
      obtain ⟨hnodup, hreached⟩ := visit_reached (fun child hchild => ⟨_, .here hchild⟩)
        ⟨nodup_nil, fun _ h => absurd h not_mem_nil⟩ hvisit
      refine ⟨⟨fun column node hnode => ?_, length_eq_one_iff.mp hroot⟩, ?_,
        trail.visited, Except.ok.inj h ▸ hvisit⟩
      · -- as many columns were met as there are, so this one was
        have hsub : trail.visited ⊆ nodes.entries.map Prod.fst := by
          intro other hother
          obtain ⟨word, hword⟩ := hreached other hother
          obtain ⟨found, hfound⟩ := (chain_of_descends hword).node
          exact mem_map.mpr ⟨_, mem_entries_iff.mpr hfound, rfl⟩
        have hperm := (hnodup.subperm hsub).perm_of_length_le
          (by rw [length_map, hcovers.1])
        have hmem : column ∈ trail.visited :=
          hperm.mem_iff.mpr (mem_map.mpr ⟨_, mem_entries_iff.mpr hnode, rfl⟩)
        obtain ⟨word, hword⟩ := hreached column hmem
        exact ⟨_, chain_of_descends hword⟩
      · rintro rfl
        rw [Except.ok.inj h] at hcovers
        exact hcovers.2 rfl

/-- What `column_order` returns. -/
theorem columnOrder_eq_ok_iff :
    nodes.columnOrder = .ok order ↔ nodes.Rooted ∧ order ≠ [] ∧ order = nodes.linear := by
  constructor
  · intro h
    obtain ⟨hrooted, hne, visited, hvisit⟩ := rooted_of_columnOrder h
    rw [visit_root] at hvisit
    exact ⟨hrooted, hne, (Trail.mk.inj (Except.ok.inj hvisit)).2.symm⟩
  · rintro ⟨hrooted, hne, rfl⟩
    obtain ⟨column, hcolumn⟩ := exists_mem_of_ne_nil _ hne
    exact columnOrder_eq hrooted ⟨column, (mem_linear hrooted).mp hcolumn⟩

end Walk

/-! ## Columns keep their places -/

section Stable

variable {nodes nodes' : ColumnNodes}

/-- Columns that are active on both sides under the same chains stand in the same order. -/
theorem linear_filter_eq (h : nodes.Rooted) (h' : nodes'.Rooted) (keep : ColumnId → Bool)
    (hsame : ∀ column chain, keep column = true →
      (nodes.active column = true ∧ nodes.Chain column chain ↔
        nodes'.active column = true ∧ nodes'.Chain column chain)) :
    nodes.linear.filter keep = nodes'.linear.filter keep := by
  have hactive : ∀ column, keep column = true →
      (nodes.active column = true ↔ nodes'.active column = true) := by
    intro column hkeep
    constructor
    · intro hon
      obtain ⟨node, hnode, -⟩ := active_iff.mp hon
      obtain ⟨chain, hchain⟩ := h.chained column node hnode
      exact ((hsame column chain hkeep).mp ⟨hon, hchain⟩).1
    · intro hon
      obtain ⟨node, hnode, -⟩ := active_iff.mp hon
      obtain ⟨chain, hchain⟩ := h'.chained column node hnode
      exact ((hsame column chain hkeep).mpr ⟨hon, hchain⟩).1
  refine eq_of_pairwise_of_mem_iff (fun _ _ hab => hab.asymm parent_unique)
    ((linear_pairwise nodes).filter keep) ?_ ?_
  · refine ((linear_pairwise nodes').filter keep).imp_of_mem ?_
    rintro a b ha hb ⟨wordA, wordB, hwordA, hwordB, hlt⟩
    obtain ⟨ha, hkeepA⟩ := mem_filter.mp ha
    obtain ⟨hb, hkeepB⟩ := mem_filter.mp hb
    have hchainA := (hsame a _ hkeepA).mpr ⟨(mem_linear h').mp ha, chain_of_descends hwordA⟩
    have hchainB := (hsame b _ hkeepB).mpr ⟨(mem_linear h').mp hb, chain_of_descends hwordB⟩
    exact ⟨wordA, wordB, descends_iff.mpr hchainA.2, descends_iff.mpr hchainB.2, hlt⟩
  · intro column
    rw [mem_filter, mem_filter, mem_linear h, mem_linear h']
    exact and_congr_left fun hkeep => hactive column hkeep

/-- A change of the catalog that leaves the other columns active or retired as they are leaves
them in their order. -/
theorem linear_filter_of_extends (h : nodes.Rooted) (h' : nodes'.Rooted)
    (hextends : nodes.Extends nodes') (keep : ColumnId → Bool)
    (hactive : ∀ column, keep column = true → nodes'.active column = nodes.active column) :
    nodes.linear.filter keep = nodes'.linear.filter keep := by
  refine linear_filter_eq h h' keep fun column chain hkeep => ?_
  rw [hactive column hkeep]
  refine and_congr_right fun hon => ⟨fun hchain => hchain.extend hextends, fun hchain' => ?_⟩
  obtain ⟨node, hnode, -⟩ := active_iff.mp hon
  obtain ⟨chain', hchain⟩ := h.chained column node hnode
  exact hchain'.unique (hchain.extend hextends) ▸ hchain

/-- New columns that follow old ones keep the catalog rooted. -/
theorem Rooted.extend (h : nodes.Rooted) (hextends : nodes.Extends nodes')
    (hnew : ∀ column node, nodes'.get column = some node → nodes.get column = none →
      ∃ predecessor, node.predecessor = some predecessor ∧ nodes.contains predecessor = true) :
    nodes'.Rooted where
  chained := by
    intro column node' hnode'
    cases hnode : nodes.get column with
    | some node =>
      obtain ⟨chain, hchain⟩ := h.chained column node hnode
      exact ⟨chain, hchain.extend hextends⟩
    | none =>
      obtain ⟨predecessor, hnext, hknown⟩ := hnew column node' hnode' hnode
      obtain ⟨before, hbefore⟩ := Option.isSome_iff_exists.mp hknown
      obtain ⟨chain, hchain⟩ := h.chained predecessor before hbefore
      exact ⟨column :: chain, .next hnode' hnext (hchain.extend hextends)⟩
  root := by
    obtain ⟨root, hroot⟩ := h.root
    refine ⟨root, hroot ▸ ?_⟩
    refine eq_of_pairwise_of_mem_iff (fun _ _ hlt => lt_asymm hlt) (children_sorted none)
      (children_sorted none) fun column => ?_
    rw [mem_children, mem_children]
    constructor
    · rintro ⟨node', hnode', hfirst⟩
      cases hnode : nodes.get column with
      | none =>
        obtain ⟨predecessor, hnext, -⟩ := hnew column node' hnode' hnode
        exact absurd (hfirst.symm.trans hnext) nofun
      | some node =>
        obtain ⟨same, hsame, hpredecessor⟩ := hextends column node hnode
        rw [Option.some.inj (hnode'.symm.trans hsame)] at hfirst
        exact ⟨node, rfl, hpredecessor.symm.trans hfirst⟩
    · rintro ⟨node, hnode, hfirst⟩
      obtain ⟨node', hnode', hsame⟩ := hextends column node hnode
      exact ⟨node', hnode', hsame.trans hfirst⟩

end Stable

/-! ## Bindings that change -/

/-- The binding of one column changes. -/
inductive Rebinds (nodes : ColumnNodes) (column : ColumnId) : ColumnNodes → Prop
  | insert {nodes' : ColumnNodes} (predecessor : ColumnId) (name : SqlName)
    (hknown : nodes.contains predecessor = true)
    (h : nodes.insertColumnBinding column predecessor name = .ok nodes') :
    Rebinds nodes column nodes'
  | retire {nodes' : ColumnNodes} (h : nodes.retireColumnBinding column = .ok nodes') :
    Rebinds nodes column nodes'
  | restore {nodes' : ColumnNodes} (name : SqlName)
    (h : nodes.restoreColumnBinding column name = .ok nodes') : Rebinds nodes column nodes'

section Rebinds

variable {nodes nodes' : ColumnNodes} {column : ColumnId} {name : SqlName}

theorem insertRow_eq_ok_iff {predecessor : Option ColumnId} :
    nodes.insertRow column predecessor name = .ok nodes' ↔
      nodes.get column = none ∧ nodes.bound name = false
        ∧ nodes' = nodes.insert column ⟨predecessor, some name⟩ := by
  rw [insertRow]
  split
  case isTrue hrefused =>
    refine iff_of_false nofun ?_
    rintro ⟨hfresh, hfree, -⟩
    rw [OrdMap.contains, hfresh, hfree] at hrefused
    exact absurd hrefused nofun
  case isFalse hfine =>
    rw [Bool.or_eq_true, not_or, OrdMap.contains, Option.not_isSome_iff_eq_none,
      Bool.not_eq_true] at hfine
    rw [Except.ok.injEq, eq_comm]
    exact ⟨fun heq => ⟨hfine.1, hfine.2, heq⟩, fun h => h.2.2⟩

theorem retire_eq_ok {nodes' : ColumnNodes} (h : nodes.retireColumnBinding column = .ok nodes') :
    ∃ predecessor name, nodes.get column = some ⟨predecessor, some name⟩
      ∧ nodes' = nodes.insert column ⟨predecessor, none⟩ := by
  rw [retireColumnBinding] at h
  split at h
  case h_1 predecessor name hget => exact ⟨predecessor, name, hget, (Except.ok.inj h).symm⟩
  case h_2 => exact absurd h nofun

theorem restore_eq_ok {nodes' : ColumnNodes}
    (h : nodes.restoreColumnBinding column name = .ok nodes') :
    ∃ predecessor, nodes.get column = some ⟨predecessor, none⟩
      ∧ nodes' = nodes.insert column ⟨predecessor, some name⟩ := by
  rw [restoreColumnBinding] at h
  split at h
  case h_1 predecessor hget =>
    obtain ⟨-, h⟩ := of_guard h
    exact ⟨predecessor, hget, (Except.ok.inj h).symm⟩
  case h_2 => exact absurd h nofun

theorem active_insert (node : ColumnNode) (other : ColumnId) :
    active (nodes.insert column node) other =
      if other = column then node.active else nodes.active other := by
  rw [active, get_insert]
  split
  · rfl
  · rfl

variable {node : ColumnNode}

theorem extends_insert
    (hsame : ∀ old, nodes.get column = some old → node.predecessor = old.predecessor) :
    nodes.Extends (nodes.insert column node) := by
  intro other old hold
  rw [get_insert]
  split
  case isTrue heq =>
    subst heq
    exact ⟨node, rfl, hsame old hold⟩
  case isFalse => exact ⟨old, hold, rfl⟩

/-- What a change of one binding does. -/
theorem Rebinds.insert_eq (h : nodes.Rebinds column nodes') :
    ∃ node : ColumnNode, nodes' = nodes.insert column node
      ∧ (∀ old, nodes.get column = some old → node.predecessor = old.predecessor)
      ∧ (nodes.get column = none →
        ∃ predecessor, node.predecessor = some predecessor
          ∧ nodes.contains predecessor = true) := by
  cases h with
  | insert predecessor name hknown h =>
    obtain ⟨hfresh, -, rfl⟩ := insertRow_eq_ok_iff.mp h
    refine ⟨_, rfl, fun old hold => ?_, fun _ => ⟨predecessor, rfl, hknown⟩⟩
    exact absurd (hfresh.symm.trans hold) nofun
  | retire h =>
    obtain ⟨predecessor, name, hget, rfl⟩ := retire_eq_ok h
    refine ⟨_, rfl, fun old hold => ?_, fun hfresh => absurd (hfresh.symm.trans hget) nofun⟩
    rw [← Option.some.inj (hget.symm.trans hold)]
  | restore name h =>
    obtain ⟨predecessor, hget, rfl⟩ := restore_eq_ok h
    refine ⟨_, rfl, fun old hold => ?_, fun hfresh => absurd (hfresh.symm.trans hget) nofun⟩
    rw [← Option.some.inj (hget.symm.trans hold)]

theorem Rebinds.extends (h : nodes.Rebinds column nodes') : nodes.Extends nodes' := by
  obtain ⟨node, rfl, hsame, -⟩ := h.insert_eq
  exact extends_insert hsame

theorem Rebinds.rooted (h : nodes.Rebinds column nodes') (hrooted : nodes.Rooted) :
    nodes'.Rooted := by
  refine hrooted.extend h.extends fun other node' hnode' hfresh => ?_
  obtain ⟨node, rfl, -, hnew⟩ := h.insert_eq
  rw [get_insert] at hnode'
  split at hnode'
  case isTrue heq =>
    subst heq
    exact Option.some.inj hnode' ▸ hnew hfresh
  case isFalse => exact absurd (hfresh.symm.trans hnode') nofun

theorem Before.extend (hextends : nodes.Extends nodes') {a b : ColumnId}
    (h : Before nodes.children a b) : Before nodes'.children a b := by
  obtain ⟨wordA, wordB, ha, hb, hlt⟩ := h
  exact ⟨wordA, wordB, descends_iff.mpr ((chain_of_descends ha).extend hextends),
    descends_iff.mpr ((chain_of_descends hb).extend hextends), hlt⟩

variable {predecessor : ColumnId}

/-- A column comes before what is added after it, and so does whatever came before it. -/
theorem before_inserted (hrooted : nodes.Rooted) (hextends : nodes.Extends nodes')
    (hnode : nodes'.get column = some node) (hnext : node.predecessor = some predecessor)
    {other : ColumnId} (hother : other = predecessor ∨ Before nodes.children other predecessor)
    (hknown : ∃ before, nodes.get predecessor = some before) :
    Before nodes'.children other column := by
  obtain ⟨before, hbefore⟩ := hknown
  obtain ⟨chain, hchain⟩ := hrooted.chained predecessor before hbefore
  have hpredecessor := hchain.extend hextends
  have hcolumn := (Chain.next hnode hnext hpredecessor).descends
  rw [reverse_cons] at hcolumn
  obtain rfl | hbefore' := hother
  · exact ⟨_, _, hpredecessor.descends, hcolumn, lt_append_cons _ _ _⟩
  · obtain ⟨word, word', hword, hword', hlt⟩ := Before.extend hextends hbefore'
    rw [hword'.word_unique parent_unique hpredecessor.descends] at hlt
    exact ⟨_, _, hword, hcolumn, hlt.trans (lt_append_cons _ _ _)⟩

/-- A column that is added after the last one becomes the last one. -/
theorem linear_insert_last (hrooted : nodes.Rooted)
    (hlast : nodes.linear.getLast? = some predecessor)
    (h : nodes.insertRow column (some predecessor) name = .ok nodes') :
    nodes'.Rooted ∧ nodes'.linear = nodes.linear ++ [column] := by
  have hactive : nodes.active predecessor = true :=
    (mem_linear hrooted).mp (mem_of_getLast? hlast)
  obtain ⟨before, hbefore, -⟩ := active_iff.mp hactive
  have hrebinds : nodes.Rebinds column nodes' :=
    .insert predecessor name (Option.isSome_iff_exists.mpr ⟨before, hbefore⟩) h
  have hrooted' := hrebinds.rooted hrooted
  have hextends := hrebinds.extends
  obtain ⟨hfresh, -, rfl⟩ := insertRow_eq_ok_iff.mp h
  refine ⟨hrooted', eq_of_pairwise_of_mem_iff (fun _ _ hab => hab.asymm parent_unique)
    (linear_pairwise _) ?_ fun other => ?_⟩
  · refine pairwise_append.mpr ⟨?_, pairwise_singleton _ _, ?_⟩
    · exact (linear_pairwise nodes).imp fun hab => Before.extend hextends hab
    · intro other hother new hnew
      rw [mem_singleton.mp hnew]
      refine before_inserted hrooted hextends (OrdMap.get_insert_self _ _ _) rfl ?_ ⟨before, hbefore⟩
      have hsplit := dropLast_append_getLast? predecessor hlast
      have hpairs := linear_pairwise nodes
      rw [← hsplit] at hother hpairs
      obtain hearlier | hsame := mem_append.mp hother
      · exact .inr ((pairwise_append.mp hpairs).2.2 other hearlier predecessor
          (mem_singleton.mpr rfl))
      · exact .inl (mem_singleton.mp hsame)
  · rw [mem_linear hrooted', mem_append, mem_linear hrooted, mem_singleton, active_insert]
    split
    case isTrue heq => exact iff_of_true rfl (.inr heq)
    case isFalse hne => exact ⟨.inl, fun hor => hor.resolve_right hne⟩

end Rebinds

/-! ## New tables -/

section Create

variable {nodes nodes' : ColumnNodes}

/-- The remaining columns of a new table follow one another. -/
theorem insertColumns_linear {columns : List (ColumnId × SqlName)} {predecessor : ColumnId}
    (hrooted : nodes.Rooted) (hlast : nodes.linear.getLast? = some predecessor)
    (h : nodes.insertColumns (some predecessor) columns = .ok nodes') :
    nodes'.Rooted ∧ nodes'.linear = nodes.linear ++ columns.map Prod.fst := by
  induction columns generalizing nodes predecessor with
  | nil =>
    rw [← Except.ok.inj h]
    exact ⟨hrooted, (append_nil _).symm⟩
  | cons entry columns ih =>
    obtain ⟨column, name⟩ := entry
    obtain ⟨middle, hinsert, hrest⟩ := of_bind h
    obtain ⟨hmiddle, hlinear⟩ := linear_insert_last hrooted hlast hinsert
    obtain ⟨hrooted', hlinear'⟩ := ih hmiddle (hlinear ▸ getLast?_concat) hrest
    refine ⟨hrooted', ?_⟩
    rw [hlinear', hlinear, append_assoc]
    rfl

/-- The first column of a new table is its root. -/
theorem first_rooted (column : ColumnId) (name : SqlName) :
    Rooted (OrdMap.insert .empty column ⟨none, some name⟩)
      ∧ linear (OrdMap.insert .empty column ⟨none, some name⟩) = [column] := by
  have hget : ∀ other node,
      OrdMap.get (OrdMap.insert .empty column ⟨none, some name⟩ : ColumnNodes) other = some node →
        other = column ∧ node = ⟨none, some name⟩ := by
    intro other node hnode
    rw [get_insert] at hnode
    split at hnode
    case isTrue heq => exact ⟨heq, (Option.some.inj hnode).symm⟩
    case isFalse => exact absurd hnode nofun
  have hrooted : Rooted (OrdMap.insert .empty column ⟨none, some name⟩) := by
    refine ⟨fun other node hnode => ?_, column, rfl⟩
    obtain ⟨rfl, rfl⟩ := hget other node hnode
    exact ⟨[other], .root hnode rfl⟩
  refine ⟨hrooted, eq_of_pairwise_of_mem_iff (fun _ _ hab => hab.asymm parent_unique)
    (linear_pairwise _) (pairwise_singleton _ _) fun other => ?_⟩
  rw [mem_linear hrooted, mem_singleton, active_insert]
  split
  case isTrue heq => exact iff_of_true rfl heq
  case isFalse hne => exact iff_of_false nofun hne

end Create

end ColumnNodes

/-! ## Tables -/

/-- The column a transition is about. -/
def ColumnTransition.column : ColumnTransition → Option ColumnId
  | .create _ => none
  | .add column _ _ | .drop column | .revertAdd column | .restoreDrop column _ => some column

namespace TableColumns

open ColumnNodes

/-- The definition of the table lists the active columns of its catalog, in their order. -/
structure Sound (table : TableColumns) : Prop where
  rooted : table.nodes.Rooted
  columns : table.columns = table.nodes.linear
  nonempty : table.columns ≠ []

variable {table table' : TableColumns} {column : ColumnId}

theorem Sound.order (h : table.Sound) : table.nodes.columnOrder = .ok table.columns :=
  columnOrder_eq_ok_iff.mpr ⟨h.rooted, h.nonempty, h.columns⟩

theorem sound_of_order (h : table.nodes.columnOrder = .ok table.columns) : table.Sound :=
  have h := columnOrder_eq_ok_iff.mp h
  ⟨h.1, h.2.2, h.2.1⟩

variable {columns order result : List ColumnId}

theorem reorderColumns_eq_ok (h : reorderColumns columns order = .ok result) : result = order := by
  rw [reorderColumns] at h
  split at h
  · exact (Except.ok.inj h).symm
  · exact absurd h nofun

theorem foldAddedColumn_eq_ok (h : foldAddedColumn columns column order = .ok result) :
    result = order := by
  rw [foldAddedColumn] at h
  obtain ⟨-, h⟩ := of_guard h
  exact reorderColumns_eq_ok h

theorem foldRemovedColumn_eq_ok (h : foldRemovedColumn columns column order = .ok result) :
    result = order := by
  rw [foldRemovedColumn] at h
  split at h
  · exact reorderColumns_eq_ok h
  · exact absurd h nofun

variable {transition : ColumnTransition}

/-- A transition rewrites the row of its column, which keeps its predecessor, and leaves the
definition in the order of the catalog. -/
theorem apply_eq_ok (h : table.apply transition = .ok table') :
    (∃ column node, transition.column = some column
        ∧ table'.nodes = table.nodes.insert column node
        ∧ ∀ old, table.nodes.get column = some old → node.predecessor = old.predecessor)
      ∧ table'.nodes.columnOrder = .ok table'.columns := by
  cases transition with
  | create columns => exact absurd h nofun
  | add column predecessor name =>
    simp only [apply, bind_eq_ok_iff] at h
    obtain ⟨nodes, hnodes, order, horder, columns, hcolumns, heq⟩ := h
    obtain ⟨hfresh, -, rfl⟩ := insertRow_eq_ok_iff.mp hnodes
    rw [← Except.ok.inj heq, foldAddedColumn_eq_ok hcolumns]
    refine ⟨⟨column, _, rfl, rfl, fun old hold => ?_⟩, horder⟩
    exact absurd (hfresh.symm.trans hold) nofun
  | drop column | revertAdd column =>
    simp only [apply, bind_eq_ok_iff] at h
    obtain ⟨nodes, hnodes, order, horder, columns, hcolumns, heq⟩ := h
    obtain ⟨predecessor, name, hget, rfl⟩ := retire_eq_ok hnodes
    rw [← Except.ok.inj heq, foldRemovedColumn_eq_ok hcolumns]
    refine ⟨⟨column, _, rfl, rfl, fun old hold => ?_⟩, horder⟩
    rw [← Option.some.inj (hget.symm.trans hold)]
  | restoreDrop column name =>
    simp only [apply, bind_eq_ok_iff] at h
    obtain ⟨nodes, hnodes, order, horder, columns, hcolumns, heq⟩ := h
    obtain ⟨predecessor, hget, rfl⟩ := restore_eq_ok hnodes
    rw [← Except.ok.inj heq, foldAddedColumn_eq_ok hcolumns]
    refine ⟨⟨column, _, rfl, rfl, fun old hold => ?_⟩, horder⟩
    rw [← Option.some.inj (hget.symm.trans hold)]

/-- A transition leaves the other columns in their order. -/
theorem Sound.apply_filter (h : table.Sound) (hcolumn : transition.column = some column)
    (happly : table.apply transition = .ok table') :
    table'.columns.filter (· ≠ column) = table.columns.filter (· ≠ column) := by
  obtain ⟨⟨touched, node, htouched, hnodes, hsame⟩, horder⟩ := apply_eq_ok happly
  obtain rfl := Option.some.inj (htouched.symm.trans hcolumn)
  have h' := sound_of_order horder
  rw [h.columns, h'.columns]
  refine (linear_filter_of_extends h.rooted h'.rooted (hnodes ▸ extends_insert hsame) _
    fun other hother => ?_).symm
  rw [hnodes, active_insert, if_neg (of_decide_eq_true hother)]

/-- A column is added locally: it becomes the last one. -/
theorem Sound.add_last (h : table.Sound) {name : SqlName}
    (hfresh : table.nodes.get column = none) (hfree : table.nodes.bound name = false) :
    ∃ transition, table.prepareAddColumn column name = some transition
      ∧ ∃ table', table.apply transition = .ok table'
        ∧ table'.columns = table.columns ++ [column] := by
  obtain ⟨predecessor, hlast⟩ : ∃ last, table.columns.getLast? = some last :=
    ⟨_, getLast?_eq_some_getLast h.nonempty⟩
  refine ⟨.add column predecessor name, by rw [prepareAddColumn, hlast]; rfl, ?_⟩
  have hinsert : table.nodes.insertColumnBinding column predecessor name = .ok _ :=
    insertRow_eq_ok_iff.mpr ⟨hfresh, hfree, rfl⟩
  obtain ⟨hrooted', hlinear'⟩ := linear_insert_last h.rooted (h.columns ▸ hlast) hinsert
  have horder : ColumnNodes.columnOrder _ = .ok (table.columns ++ [column]) :=
    columnOrder_eq_ok_iff.mpr ⟨hrooted', by simp, by rw [hlinear', h.columns]⟩
  have hnew : column ∉ table.columns := by
    rw [h.columns, mem_linear h.rooted, active, hfresh]
    exact nofun
  have hfold : foldAddedColumn table.columns column (table.columns ++ [column]) =
      .ok (table.columns ++ [column]) := by
    rw [foldAddedColumn, if_neg hnew, reorderColumns, if_pos]
    refine ⟨rfl, ?_, fun _ => id⟩
    rw [h.columns, ← hlinear']
    exact linear_nodup _
  refine ⟨⟨table.columns ++ [column],
    table.nodes.insert column ⟨some predecessor, some name⟩⟩, ?_, rfl⟩
  simp only [apply, hinsert, ok_bind, horder, hfold]
  rfl

/-- A new table lists its columns in their order. -/
theorem sound_create {columns : List (ColumnId × SqlName)} (h : create columns = .ok table) :
    table.Sound := by
  rw [create] at h
  split at h
  · exact absurd h nofun
  case isFalse hne =>
    obtain ⟨nodes, hnodes, heq⟩ := of_bind h
    rw [← Except.ok.inj heq]
    obtain ⟨⟨first, name⟩, rest, rfl⟩ := exists_cons_of_ne_nil hne
    obtain ⟨one, hone, hrest⟩ := of_bind hnodes
    obtain ⟨-, -, rfl⟩ := insertRow_eq_ok_iff.mp hone
    obtain ⟨hrooted, hlinear⟩ := first_rooted first name
    obtain ⟨hrooted', hlinear'⟩ := insertColumns_linear hrooted (hlinear ▸ rfl) hrest
    refine ⟨hrooted', ?_, cons_ne_nil _ _⟩
    rw [hlinear', hlinear]
    rfl

theorem sound_step {state : Option TableColumns} (h : step state transition = some (some table))
    (hstate : ∀ table ∈ state, table.Sound) :
    table.Sound := by
  cases state with
  | none =>
    cases transition with
    | create columns =>
      obtain ⟨made, hmade, heq⟩ := Option.map_eq_some_iff.mp h
      cases hcreate : create columns with
      | error fault =>
        rw [hcreate] at hmade
        exact absurd hmade nofun
      | ok result =>
        rw [hcreate] at hmade
        rw [← Option.some.inj heq, ← Option.some.inj hmade]
        exact sound_create hcreate
    | _ => exact absurd h nofun
  | some before =>
    obtain ⟨made, hmade, heq⟩ := Option.map_eq_some_iff.mp h
    cases happly : before.apply transition with
    | error fault =>
      rw [happly] at hmade
      exact absurd hmade nofun
    | ok result =>
      rw [happly] at hmade
      rw [← Option.some.inj heq, ← Option.some.inj hmade]
      exact sound_of_order (apply_eq_ok happly).2

theorem sound_of_runs {transitions : List ColumnTransition}
    (h : Runs step none transitions (some table)) : table.Sound := by
  have hall : ∀ state, Runs step none transitions state → ∀ table ∈ state, table.Sound := by
    intro state hstate
    refine hstate.invariant (fun state => ∀ table ∈ state, table.Sound) ?_ nofun
    rintro before transition after hbefore hstep table rfl
    exact sound_step hstep hbefore
  exact hall _ h table rfl

end TableColumns

/-- Bindings change, one column after the other. -/
def ColumnNodes.Evolves (nodes nodes' : ColumnNodes) : Prop :=
  Relation.ReflTransGen (fun nodes nodes' => ∃ column, nodes.Rebinds column nodes') nodes nodes'

theorem ColumnNodes.Evolves.rooted {nodes nodes' : ColumnNodes} (h : nodes.Evolves nodes')
    (hrooted : nodes.Rooted) : nodes'.Rooted := by
  induction h with
  | refl => exact hrooted
  | tail _ hstep ih =>
    obtain ⟨column, hrebinds⟩ := hstep
    exact hrebinds.rooted ih

/-- For every table that transitions lead to:
`column_order` is the definition of the table, and goes on to succeed however the bindings
change, while a column is active; a column that is added locally comes last; a transition leaves
the other columns in their order; and another replica whose active columns have the same chains
of predecessors has the same columns in the same order. -/
theorem column_order_stable {transitions : List ColumnTransition} {table : TableColumns}
    (h : Runs TableColumns.step none transitions (some table)) :
    (table.nodes.columnOrder = .ok table.columns
      ∧ ∀ nodes, table.nodes.Evolves nodes → (∃ column, nodes.active column = true) →
        ∃ order, nodes.columnOrder = .ok order)
    ∧ (∀ column name, table.nodes.get column = none → table.nodes.bound name = false →
        ∃ transition, table.prepareAddColumn column name = some transition
          ∧ ∃ table', table.apply transition = .ok table'
            ∧ table'.columns = table.columns ++ [column])
    ∧ (∀ transition column table', transition.column = some column →
        table.apply transition = .ok table' →
        table'.columns.filter (· ≠ column) = table.columns.filter (· ≠ column))
    ∧ ∀ transitions' replica, Runs TableColumns.step none transitions' (some replica) →
        (∀ column chain, table.nodes.active column = true ∧ table.nodes.Chain column chain ↔
          replica.nodes.active column = true ∧ replica.nodes.Chain column chain) →
        table.nodes.columnOrder = replica.nodes.columnOrder := by
  have hsound := TableColumns.sound_of_runs h
  refine ⟨⟨hsound.order, fun nodes hevolves hactive => ?_⟩, ?_, ?_, ?_⟩
  · exact ⟨_, ColumnNodes.columnOrder_eq (hevolves.rooted hsound.rooted) hactive⟩
  · exact fun column name hfresh hfree => hsound.add_last hfresh hfree
  · exact fun transition column table' hcolumn happly => hsound.apply_filter hcolumn happly
  · intro transitions' replica hruns' hsame
    have hreplica := TableColumns.sound_of_runs hruns'
    have hlinear := ColumnNodes.linear_filter_eq hsound.rooted hreplica.rooted (fun _ => true)
      fun column chain _ => hsame column chain
    rw [filter_true, filter_true] at hlinear
    rw [hsound.order, hreplica.order, hsound.columns, hreplica.columns, hlinear]

/-- An identity for examples. -/
def sampleColumn (byte : U8) : ColumnId := ByteArr.filled 16 byte

/-- A table of two columns, of which the second one has the smaller identity, after a rejected
addition, an accepted one, and a rejected removal. -/
def sampleTransitions : List ColumnTransition :=
  [.create [(sampleColumn 2, [97]), (sampleColumn 1, [98])],
    .add (sampleColumn 5) (sampleColumn 1) [99], .revertAdd (sampleColumn 5),
    .add (sampleColumn 3) (sampleColumn 1) [100], .drop (sampleColumn 1),
    .restoreDrop (sampleColumn 1) [98]]

def sampleTable : TableColumns where
  columns := [sampleColumn 2, sampleColumn 1, sampleColumn 3]
  nodes := OrdMap.empty.insert (sampleColumn 1) ⟨some (sampleColumn 2), some [98]⟩
    |>.insert (sampleColumn 2) ⟨none, some [97]⟩
    |>.insert (sampleColumn 3) ⟨some (sampleColumn 1), some [100]⟩
    |>.insert (sampleColumn 5) ⟨some (sampleColumn 1), none⟩

theorem column_order_stable_sample :
    Runs TableColumns.step none sampleTransitions (some sampleTable)
      ∧ sampleTable.nodes.columnOrder = .ok [sampleColumn 2, sampleColumn 1, sampleColumn 3]
      ∧ ∃ transition, sampleTable.prepareAddColumn (sampleColumn 4) [99] = some transition
        ∧ ∃ table', sampleTable.apply transition = .ok table'
          ∧ table'.columns =
            [sampleColumn 2, sampleColumn 1, sampleColumn 3, sampleColumn 4] := by
  have hruns : Runs TableColumns.step none sampleTransitions (some sampleTable) := by
    decide +kernel
  obtain ⟨⟨horder, -⟩, hlast, -⟩ := column_order_stable hruns
  exact ⟨hruns, horder, hlast (sampleColumn 4) [99] (by decide +kernel) (by decide +kernel)⟩

/-- The definition of a table lists every active column of its catalog once, and no other. -/
theorem columns_exact {transitions : List ColumnTransition} {table : TableColumns}
    (h : Runs TableColumns.step none transitions (some table)) :
    table.columns.Nodup ∧ ∀ column, column ∈ table.columns ↔ table.nodes.active column = true := by
  have hsound := TableColumns.sound_of_runs h
  rw [hsound.columns]
  exact ⟨ColumnNodes.linear_nodup _, fun column => ColumnNodes.mem_linear hsound.rooted⟩

theorem columns_exact_sample :
    Runs TableColumns.step none sampleTransitions (some sampleTable) ∧
      sampleTable.nodes.active (sampleColumn 3) = true :=
  have hruns := by decide +kernel
  ⟨hruns, ((columns_exact hruns).2 _).mp (by decide)⟩

end Homebase.Multilite
