import ExprFront.Arena.Invariant
import ExprFront.Proofs.Tree.Shape
import Mathlib.Data.List.Forall2
import Mathlib.Data.List.Nodup
import Mathlib.Data.List.Perm.Subperm
import Mathlib.Logic.Relation

/-!
# Trees in an arena

A plot is a tree whose nodes have numbers. `Arena.Bears` says that an arena has
all nodes of a plot, each with the children and the parent that the plot gives
it. What else is in the arena does not matter, so a plot is borne on whenever
an operation leaves its numbers alone.

Distinct numbers are asked for apart: they bound the depth of a plot by the size
of the arena, so that the tree of its root is found and its check goes through.
-/

namespace ExprFront

/-- A tree whose nodes have numbers. -/
inductive Plot where
  | node (id : NodeId) (kind : NodeKind) (range : TokenRange) (children : List Plot)

namespace Plot

/-- Induction over plots, with the hypothesis for every child. -/
@[elab_as_elim, induction_eliminator]
theorem induction
    {motive : Plot → Prop}
    (node : ∀ id kind range ps, (∀ p ∈ ps, motive p) → motive (.node id kind range ps))
    (p : Plot) : motive p :=
  @Plot.rec motive (fun ps => ∀ p ∈ ps, motive p) node
    (fun _ hp => absurd hp List.not_mem_nil)
    (fun _ _ hhead htail p hp => by
      rcases List.mem_cons.mp hp with rfl | hp
      · exact hhead
      · exact htail p hp) p

/-- The number of the root. -/
def root : Plot → NodeId
  | node id _ _ _ => id

/-- The kind of the root. -/
def kind : Plot → NodeKind
  | node _ kind _ _ => kind

/-- The tokens that the root spans. -/
def range : Plot → TokenRange
  | node _ _ range _ => range

/-- The tree without the numbers. -/
def tree : Plot → Tree
  | node _ kind range ps => .node kind range (ps.map tree)

/-- The numbers of all nodes, the root first. -/
def ids : Plot → List NodeId
  | node id _ _ ps => id :: ps.flatMap ids

@[simp] theorem root_node
    (id : NodeId) (kind : NodeKind) (range : TokenRange) (ps : List Plot) :
    (node id kind range ps).root = id := rfl

theorem root_mem_ids (p : Plot) : p.root ∈ p.ids := by
  obtain ⟨id, kind, range, ps⟩ := p
  simp [ids]

theorem ids_subset_flatMap
    {p : Plot} {ps : List Plot} (hp : p ∈ ps) : ∀ id ∈ p.ids, id ∈ ps.flatMap ids :=
  fun _ hid => List.mem_flatMap.mpr ⟨p, hp, hid⟩

theorem length_ids_le_flatMap
    {p : Plot} {ps : List Plot} (hp : p ∈ ps) : p.ids.length ≤ (ps.flatMap ids).length := by
  obtain ⟨front, back, rfl⟩ := List.append_of_mem hp
  simp only [List.flatMap_append, List.flatMap_cons, List.length_append]
  omega

theorem nodup_ids_of_mem
    {p : Plot} {ps : List Plot} (hnodup : (ps.flatMap ids).Nodup) (hp : p ∈ ps) : p.ids.Nodup :=
  (List.nodup_flatMap.mp hnodup).1 p hp

end Plot

/-- A member of the first list is paired with one of the second. -/
theorem exists_mem_of_forall₂
    {α β : Type} {R : α → β → Prop} {as : List α} {bs : List β} (h : List.Forall₂ R as bs) {x : α}
    (hx : x ∈ as) : ∃ y ∈ bs, R x y := by
  induction h with
  | nil => cases hx
  | cons hhead _ ih =>
      rcases List.mem_cons.mp hx with rfl | hx
      · exact ⟨_, List.mem_cons_self, hhead⟩
      · obtain ⟨y, hy, hR⟩ := ih hx
        exact ⟨y, List.mem_cons_of_mem _ hy, hR⟩

namespace Arena

open Plot

variable {a b : Arena}

/-- The arena has the nodes of the plot, each with its children and its parent. -/
def Bears (a : Arena) : (parent : Option NodeId) → Plot → Prop
  | parent, .node id kind range ps =>
      a.node? id = some ⟨kind, range, ps.map Plot.root, parent⟩ ∧ ∀ p ∈ ps, a.Bears (some id) p

theorem bears_node_iff
    {parent : Option NodeId} {id : NodeId} {kind : NodeKind} {range : TokenRange}
    {ps : List Plot} :
    a.Bears parent (.node id kind range ps) ↔
      a.node? id = some ⟨kind, range, ps.map Plot.root, parent⟩ ∧
        ∀ p ∈ ps, a.Bears (some id) p := by
  rw [Bears]

/-- The root of a plot that is borne. -/
theorem Bears.node?_root
    {parent : Option NodeId} {p : Plot} (h : a.Bears parent p) :
    ∃ ids, a.node? p.root = some ⟨p.kind, p.range, ids, parent⟩ := by
  obtain ⟨id, kind, range, ps⟩ := p
  exact ⟨ps.map Plot.root, (bears_node_iff.mp h).1⟩

theorem Bears.parent_eq
    {parent : Option NodeId} {p : Plot} (h : a.Bears parent p) : a.parent p.root = parent := by
  obtain ⟨ids, hroot⟩ := h.node?_root
  rw [Arena.parent, hroot]
  rfl

theorem Bears.children_eq
    {parent : Option NodeId} {id : NodeId} {kind : NodeKind} {range : TokenRange}
    {ps : List Plot} (h : a.Bears parent (.node id kind range ps)) :
    a.children id = ps.map Plot.root := by
  rw [children, (bears_node_iff.mp h).1]

/-- Only the nodes of the plot matter. -/
theorem Bears.congr
    {parent : Option NodeId} {p : Plot} (h : a.Bears parent p)
    (hsame : ∀ id ∈ p.ids, b.node? id = a.node? id) : b.Bears parent p := by
  induction p generalizing parent with
  | node id kind range ps ih =>
      obtain ⟨hroot, hps⟩ := bears_node_iff.mp h
      rw [ids] at hsame
      refine bears_node_iff.mpr ⟨(hsame id List.mem_cons_self).trans hroot, fun p hp => ?_⟩
      refine ih p hp (hps p hp) fun other hother => hsame other ?_
      exact List.mem_cons_of_mem id (ids_subset_flatMap hp other hother)

/-- A plot is borne with another parent if only the parent of its root has changed. -/
theorem Bears.reparent
    {parent other : Option NodeId} {p : Plot} (h : a.Bears parent p) (hnodup : p.ids.Nodup)
    (hroot : b.node? p.root = (a.node? p.root).map fun n => { n with parent := other })
    (hsame : ∀ id ∈ p.ids, id ≠ p.root → b.node? id = a.node? id) : b.Bears other p := by
  obtain ⟨id, kind, range, ps⟩ := p
  obtain ⟨hnode, hps⟩ := bears_node_iff.mp h
  rw [root_node, hnode] at hroot
  rw [ids, List.nodup_cons] at hnodup
  refine bears_node_iff.mpr ⟨hroot, fun p hp => (hps p hp).congr fun below hbelow => ?_⟩
  have hmem := ids_subset_flatMap hp below hbelow
  apply hsame below (by simp [ids, hmem])
  rintro rfl
  exact hnodup.1 hmem

theorem lt_size_of_node?
    {id : NodeId} {n : Node} (h : a.node? id = some n) : id < a.size :=
  (a.node?_isSome_iff id).mp (by simp [h])

theorem Bears.lt_size
    {parent : Option NodeId} {p : Plot} (h : a.Bears parent p) : ∀ id ∈ p.ids, id < a.size := by
  induction p generalizing parent with
  | node id kind range ps ih =>
      obtain ⟨hroot, hps⟩ := bears_node_iff.mp h
      intro other hother
      rw [ids, List.mem_cons, List.mem_flatMap] at hother
      rcases hother with rfl | ⟨p, hp, hother⟩
      · exact lt_size_of_node? hroot
      · exact ih p hp (hps p hp) other hother

/-- A plot with distinct numbers has no more nodes than the arena. -/
theorem Bears.length_ids_le
    {parent : Option NodeId} {p : Plot} (h : a.Bears parent p) (hnodup : p.ids.Nodup) :
    p.ids.length ≤ a.size := by
  have hsubset : p.ids ⊆ List.range a.size := fun id hid => List.mem_range.mpr (h.lt_size id hid)
  simpa using (hnodup.subperm hsubset).length_le

/-! ## Trees of nodes -/

theorem mapM_eq_some_iff_forall₂
    {ids : List NodeId} {ts : List Tree} {tree? : NodeId → Option Tree} :
    ids.mapM tree? = some ts ↔ List.Forall₂ (fun id t => tree? id = some t) ids ts := by
  induction ids generalizing ts with
  | nil => simp [eq_comm]
  | cons id ids ih =>
      rw [List.forall₂_cons_left_iff, List.mapM_cons]
      simp only [← ih, Option.bind_eq_bind, Option.bind_eq_some_iff, Option.pure_def,
        Option.some.injEq]
      constructor
      · rintro ⟨t, ht, rest, hrest, rfl⟩
        exact ⟨t, rest, ht, hrest, rfl⟩
      · rintro ⟨t, rest, ht, hrest, rfl⟩
        exact ⟨t, ht, rest, hrest, rfl⟩

/-- A tree of a node has the kind and the range of the node, and the trees of its children. -/
theorem treeWithin?_succ_eq_some_iff
    {levels : Nat} {id : NodeId} {t : Tree} :
    a.treeWithin? (levels + 1) id = some t ↔
      ∃ n, a.node? id = some n ∧ n.kind = t.kind ∧ n.range = t.range ∧
        List.Forall₂ (fun child u => a.treeWithin? levels child = some u) n.children
          t.children := by
  obtain ⟨kind, range, ts⟩ := t
  rw [treeWithin?]
  cases a.node? id with
  | none => simp
  | some n =>
      simp only [Option.map_eq_some_iff, mapM_eq_some_iff_forall₂, Tree.node.injEq,
        Option.some.injEq, exists_eq_left', Tree.kind, Tree.range, Tree.children]
      constructor
      · rintro ⟨ts, hts, rfl, rfl, rfl⟩
        exact ⟨rfl, rfl, hts⟩
      · rintro ⟨rfl, rfl, hts⟩
        exact ⟨ts, hts, rfl, rfl, rfl⟩

theorem Bears.treeWithin?_eq
    {parent : Option NodeId} {p : Plot} {levels : Nat} (h : a.Bears parent p)
    (hlevels : p.ids.length ≤ levels) : a.treeWithin? levels p.root = some p.tree := by
  induction p generalizing parent levels with
  | node id kind range ps ih =>
      obtain ⟨hroot, hps⟩ := bears_node_iff.mp h
      rw [ids, List.length_cons] at hlevels
      obtain ⟨levels, rfl⟩ : ∃ less, levels = less + 1 := ⟨levels - 1, by omega⟩
      rw [treeWithin?_succ_eq_some_iff, Plot.tree]
      refine ⟨_, hroot, rfl, rfl, ?_⟩
      rw [Tree.children, List.forall₂_map_left_iff, List.forall₂_map_right_iff, List.forall₂_same]
      intro p hp
      have := length_ids_le_flatMap hp
      exact ih p hp (hps p hp) (by omega)

/-- The tree of the root of a plot is the tree of the plot. -/
theorem Bears.tree?_eq
    {parent : Option NodeId} {p : Plot} (h : a.Bears parent p) (hnodup : p.ids.Nodup) :
    a.tree? p.root = some p.tree :=
  h.treeWithin?_eq (h.length_ids_le hnodup)

/-! ## Nodes below a node -/

/-- The second node is the first or lies below it. -/
def Reaches (a : Arena) : NodeId → NodeId → Prop :=
  Relation.ReflTransGen fun id child => child ∈ a.children id

/-- A tree is found with more levels too. -/
theorem treeWithin?_succ
    {levels : Nat} {id : NodeId} {t : Tree} (h : a.treeWithin? levels id = some t) :
    a.treeWithin? (levels + 1) id = some t := by
  induction levels generalizing id t with
  | zero => cases h
  | succ levels ih =>
      obtain ⟨n, hnode, hkind, hrange, hchildren⟩ := treeWithin?_succ_eq_some_iff.mp h
      exact treeWithin?_succ_eq_some_iff.mpr ⟨n, hnode, hkind, hrange, hchildren.imp fun _ _ => ih⟩

theorem exists_node_of_tree?
    {id : NodeId} {t : Tree} (h : a.tree? id = some t) :
    ∃ n, a.node? id = some n ∧ n.kind = t.kind ∧ n.range = t.range ∧
      List.Forall₂ (fun child u => a.tree? child = some u) n.children t.children := by
  unfold tree? at h ⊢
  cases hsize : a.size with
  | zero =>
      rw [hsize] at h
      cases h
  | succ levels =>
      rw [hsize] at h
      obtain ⟨n, hnode, hkind, hrange, hchildren⟩ := treeWithin?_succ_eq_some_iff.mp h
      exact ⟨n, hnode, hkind, hrange, hchildren.imp fun _ _ => treeWithin?_succ⟩

/-- A node below one with a tree has a subtree of it. -/
theorem Reaches.exists_isSubtree
    {id below : NodeId} {t : Tree} (h : a.Reaches id below) (ht : a.tree? id = some t) :
    ∃ u : Tree, u.IsSubtree t ∧ a.tree? below = some u := by
  induction h using Relation.ReflTransGen.head_induction_on generalizing t with
  | refl => exact ⟨t, .refl t, ht⟩
  | head hchild _ ih =>
      obtain ⟨n, hnode, -, -, hchildren⟩ := exists_node_of_tree? ht
      rw [children, hnode] at hchild
      obtain ⟨kind, range, ts⟩ := t
      obtain ⟨u, hu, htree⟩ := exists_mem_of_forall₂ hchildren hchild
      obtain ⟨v, hv, hbelow⟩ := ih htree
      exact ⟨v, .child hu hv, hbelow⟩

/-! ## Checks -/

@[simp] theorem range_tree
    (p : Plot) : p.tree.range = p.range := by
  obtain ⟨id, kind, range, ps⟩ := p
  rw [Plot.tree]
  rfl

theorem checkChildren_eq_ok
    {levels : Nat} {id : NodeId} {n : Node} {ps : List Plot} {cursor : Nat}
    (hps : ∀ p ∈ ps, a.Bears (some id) p)
    (hcheck : ∀ p ∈ ps, p.tree.WellFormed → a.checkWithin levels p.root = .ok ())
    (h : Tree.Arranged n.range cursor (ps.map Plot.tree)) :
    a.checkChildren (a.checkWithin levels) id n cursor (ps.map Plot.root) = .ok () := by
  induction ps generalizing cursor with
  | nil => rfl
  | cons p ps ih =>
      obtain ⟨hinside, hcursor, hwell, hlater⟩ := h
      obtain ⟨ids, hnode⟩ := (hps p List.mem_cons_self).node?_root
      rw [range_tree] at hinside hcursor hlater
      have htail := ih (fun q hq => hps q (List.mem_cons_of_mem p hq))
        (fun q hq => hcheck q (List.mem_cons_of_mem p hq)) hlater
      have hnone : childBreach? id n cursor p.root ⟨p.kind, p.range, ids, some id⟩ = none := by
        simp [childBreach?, hinside, Nat.not_lt.mpr hcursor]
      simp only [List.map_cons, checkChildren, hnode, hnone,
        hcheck p List.mem_cons_self hwell, htail]

theorem Bears.checkWithin_eq_ok
    {parent : Option NodeId} {p : Plot} {levels : Nat} (h : a.Bears parent p)
    (hwell : p.tree.WellFormed) (hlevels : p.ids.length ≤ levels) :
    a.checkWithin levels p.root = .ok () := by
  induction p generalizing parent levels with
  | node id kind range ps ih =>
      obtain ⟨hroot, hps⟩ := bears_node_iff.mp h
      rw [ids, List.length_cons] at hlevels
      obtain ⟨levels, rfl⟩ : ∃ less, levels = less + 1 := ⟨levels - 1, by omega⟩
      rw [Plot.tree] at hwell
      obtain ⟨harity, hleaf, harranged⟩ := hwell
      have hnone : ownBreach? ⟨kind, range, ps.map Plot.root, parent⟩ = none := by
        rw [List.length_map] at harity
        simp only [ownBreach?, List.length_map, harity]
        simpa using hleaf
      have hchildren : ∀ p ∈ ps, p.tree.WellFormed → a.checkWithin levels p.root = .ok () := by
        intro p hp hwell
        have := length_ids_le_flatMap hp
        exact ih p hp (hps p hp) hwell (by omega)
      simp only [checkWithin, root_node, hroot, hnone]
      exact checkChildren_eq_ok hps hchildren harranged

/-- The check of a plot with a well-formed tree goes through. -/
theorem Bears.check_eq_ok
    {parent : Option NodeId} {p : Plot} (h : a.Bears parent p) (hnodup : p.ids.Nodup)
    (hwell : p.tree.WellFormed) : a.check p.root = .ok () :=
  h.checkWithin_eq_ok hwell (Nat.le_succ_of_le (h.length_ids_le hnodup))

end Arena

end ExprFront
