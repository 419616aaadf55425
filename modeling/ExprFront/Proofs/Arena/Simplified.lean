import ExprFront.Arena.Simplify
import ExprFront.Proofs.Arena.Built
import Mathlib.Data.List.Pairwise
import Mathlib.Tactic.ByContra

/-!
# Collapsing wrappers in place

Collapsing goes through the nodes of a plot, every node after its descendants.
When a node is reached, the plots below it are collapsed already, so the node
has to look no further than its only child. Each step keeps the numbers of the
plot or drops one of them, and leaves all other nodes of the arena alone; the
tree of the plot becomes `Tree.simplified`. A number that is dropped stays in
the arena, as a node by itself.
-/

namespace ExprFront

namespace Plot

/-- A node over collapsed plots; a wrapper takes over what its only child has. -/
def collapsed (id : NodeId) (kind : NodeKind) (range : TokenRange) (ps : List Plot) : Plot :=
  match kind.isWrapper, ps with
  | true, [node _ k r qs] => node id k r qs
  | _, _ => node id kind range ps

/-- The plot in which every wrapper has taken over what its only child has. -/
def simplified : Plot → Plot
  | node id kind range ps => collapsed id kind range (ps.map simplified)

/-- The numbers of all nodes, every node after its descendants. -/
def postorder : Plot → List NodeId
  | node id _ _ ps => ps.flatMap postorder ++ [id]

@[simp] theorem root_collapsed
    (id : NodeId) (kind : NodeKind) (range : TokenRange) (ps : List Plot) :
    (collapsed id kind range ps).root = id := by
  unfold collapsed
  split <;> rfl

@[simp] theorem root_simplified
    (p : Plot) : p.simplified.root = p.root := by
  obtain ⟨id, kind, range, ps⟩ := p
  rw [simplified, root_collapsed]
  rfl

theorem tree_collapsed
    (id : NodeId) (kind : NodeKind) (range : TokenRange) (ps : List Plot) :
    (collapsed id kind range ps).tree = Tree.collapsed kind range (ps.map tree) := by
  unfold collapsed
  split
  · rename_i hkind
    rw [List.map_singleton, Tree.collapsed_wrapper hkind, tree, tree]
  · rename_i hnot
    rw [tree]
    unfold Tree.collapsed
    split
    · rename_i t hkind hts
      obtain ⟨⟨child, k, r, qs⟩, rfl, -⟩ := List.map_eq_singleton_iff.mp hts
      exact absurd rfl (hnot child k r qs hkind)
    · rfl

/-- The tree of a collapsed plot is the collapsed tree. -/
theorem tree_simplified
    (p : Plot) : p.simplified.tree = p.tree.simplified := by
  induction p with
  | node id kind range ps ih =>
      rw [simplified, tree_collapsed, tree, Tree.simplified_node, List.map_map, List.map_map]
      congr 1
      exact List.map_congr_left ih

theorem ids_collapsed_sublist
    (id : NodeId) (kind : NodeKind) (range : TokenRange) (ps : List Plot) :
    (collapsed id kind range ps).ids.Sublist (id :: ps.flatMap ids) := by
  unfold collapsed
  split
  · rw [List.flatMap_singleton, ids, ids]
    exact (List.sublist_cons_self _ _).cons_cons id
  · rw [ids]

theorem flatMap_ids_sublist
    {ps : List Plot} {f : Plot → Plot} (h : ∀ p ∈ ps, (f p).ids.Sublist p.ids) :
    ((ps.map f).flatMap ids).Sublist (ps.flatMap ids) := by
  induction ps with
  | nil => exact .refl _
  | cons p ps ih =>
      rw [List.map_cons, List.flatMap_cons, List.flatMap_cons]
      exact (h p List.mem_cons_self).append (ih fun q hq => h q (List.mem_cons_of_mem p hq))

/-- Collapsing keeps numbers or drops them. -/
theorem ids_simplified_sublist
    (p : Plot) : p.simplified.ids.Sublist p.ids := by
  induction p with
  | node id kind range ps ih =>
      rw [simplified]
      apply (ids_collapsed_sublist _ _ _ _).trans
      rw [ids]
      exact (flatMap_ids_sublist ih).cons_cons id

theorem postorder_subset
    (p : Plot) : p.postorder ⊆ p.ids := by
  induction p with
  | node id kind range ps ih =>
      intro other hother
      rw [postorder, List.mem_append, List.mem_flatMap, List.mem_singleton] at hother
      rw [ids, List.mem_cons, List.mem_flatMap]
      rcases hother with ⟨p, hp, hmem⟩ | rfl
      · exact .inr ⟨p, hp, ih p hp hmem⟩
      · exact .inl rfl

theorem eq_of_mem_ids
    {ps : List Plot} {p q : Plot} {id : NodeId} (hnodup : (ps.flatMap ids).Nodup) (hp : p ∈ ps)
    (hq : q ∈ ps) (hidP : id ∈ p.ids) (hidQ : id ∈ q.ids) : p = q := by
  by_contra hne
  have hsymm : Std.Symm (Function.onFun List.Disjoint ids) := ⟨fun _ _ h _ hq hp => h hp hq⟩
  exact (List.nodup_flatMap.mp hnodup).2.forall hp hq hne hidP hidQ

end Plot

namespace Arena

open Plot

variable {a b : Arena}

/-! ## The order of the nodes -/

/-- The nodes below pending ones come in front of those seen before, the last pending first. -/
theorem descendants_eq
    {ps : List Plot} {steps : Nat} (hps : ∀ p ∈ ps, ∃ parent, a.Bears parent p)
    (hsteps : (ps.flatMap ids).length ≤ steps) (seen : List NodeId) :
    a.descendants steps (ps.map root) seen = ps.reverse.flatMap postorder ++ seen := by
  induction steps generalizing ps seen with
  | zero =>
      cases ps with
      | nil => rfl
      | cons p ps =>
          have := List.length_pos_of_mem p.root_mem_ids
          rw [List.flatMap_cons, List.length_append] at hsteps
          omega
  | succ steps ih =>
      cases ps with
      | nil => rfl
      | cons p ps =>
          obtain ⟨parent, hp⟩ := hps p List.mem_cons_self
          obtain ⟨id, kind, range, qs⟩ := p
          have hqs := (bears_node_iff.mp hp).2
          have hbelow : ∀ q ∈ qs.reverse ++ ps, ∃ parent, a.Bears parent q := by
            intro q hq
            rcases List.mem_append.mp hq with hq | hq
            · exact ⟨some id, hqs q (List.mem_reverse.mp hq)⟩
            · exact hps q (List.mem_cons_of_mem _ hq)
          have hfewer : ((qs.reverse ++ ps).flatMap ids).length ≤ steps := by
            have hreverse := ((List.reverse_perm qs).flatMap_right ids).length_eq
            rw [List.flatMap_cons, ids, List.cons_append, List.length_cons,
              List.length_append] at hsteps
            rw [List.flatMap_append, List.length_append, hreverse]
            omega
          rw [List.map_cons, root_node, descendants, hp.children_eq, ← List.map_reverse,
            ← List.map_append, ih hbelow hfewer]
          simp [postorder]

/-! ## One node -/

/-- The node is in the arena, without parent and without children. -/
def Alone (a : Arena) (id : NodeId) : Prop :=
  ∃ n, a.node? id = some n ∧ n.children = [] ∧ n.parent = none

theorem Alone.congr
    {id : NodeId} (h : a.Alone id) (hsame : b.node? id = a.node? id) : b.Alone id := by
  obtain ⟨n, hnode, halone⟩ := h
  exact ⟨n, hsame.trans hnode, halone⟩

theorem node?_foldl_clearParent
    (cut : List NodeId) (a : Arena) (id : NodeId) :
    (cut.foldl clearParent a).node? id =
      if id ∈ cut then (a.node? id).map fun n => { n with parent := none } else a.node? id := by
  induction cut generalizing a with
  | nil => simp
  | cons first cut ih =>
      rw [List.foldl_cons, ih, clearParent, node?_modify]
      by_cases hid : first = id
      · subst hid
        cases a.node? first <;> simp
      · simp [hid, Ne.symm hid]

theorem size_foldl_clearParent
    (ids : List NodeId) (a : Arena) : (ids.foldl clearParent a).size = a.size := by
  induction ids generalizing a with
  | nil => rfl
  | cons id ids ih => rw [List.foldl_cons, ih, size_clearParent]

theorem size_popBack
    (a : Arena) (id : NodeId) : (a.popBack id).2.size = a.size := by
  unfold popBack
  split <;> simp

theorem size_popAll
    (a : Arena) (id : NodeId) : (a.popAll id).2.size = a.size := by
  simp [popAll, size_foldl_clearParent]

/-- Collapsing loses no node. -/
theorem size_absorb
    {id : NodeId} (h : a.absorb id = .ok b) : b.size = a.size := by
  unfold absorb at h
  split at h
  · cases h
    rfl
  · split at h
    · split at h
      · cases h
      · rename_i child _ _ _ c _
        have hsize := size_pushBackAll
          (a := ((a.popBack id).2.popAll child).2.recast id c.kind c.range) h
        rw [hsize, size_recast, size_popAll, size_popBack]
    · cases h
      rfl

/-- A wrapper takes over the kind and the range of its only child and gives it up; the children
of the child have no parent until they are attached to the wrapper. -/
theorem absorb_of_wrapper
    {id child : NodeId} {n c : Node} (hid : a.node? id = some n)
    (hkind : n.kind.isWrapper = true) (honly : n.children = [child])
    (hchild : a.node? child = some c) (hne : id ≠ child) (houtside : id ∉ c.children)
    (hself : child ∉ c.children) :
    ∃ b : Arena, a.absorb id = b.pushBackAll id c.children ∧
      b.node? id = some ⟨c.kind, c.range, [], n.parent⟩ ∧ b.Alone child ∧
      ∀ other, other ≠ id → other ≠ child → b.node? other =
        if other ∈ c.children then (a.node? other).map fun n => { n with parent := none }
        else a.node? other := by
  have hlast : (a.children id).getLast? = some child := by
    simp [children, hid, honly]
  -- Cut off from the wrapper, the child still has its children.
  let cut := (a.modify id fun n => { n with children := n.children.dropLast }).clearParent child
  have hcut : cut.node? child = some { c with parent := none } := by
    simp [cut, clearParent, node?_modify, hne, hchild]
  have hadopted : cut.children child = c.children := by
    simp [children, hcut]
  let freed := c.children.foldl clearParent (cut.modify child fun n => { n with children := [] })
  have hfreed : ∀ other, other ≠ child → freed.node? other =
      if other ∈ c.children then (cut.node? other).map fun n => { n with parent := none }
      else cut.node? other := by
    intro other hother
    rw [node?_foldl_clearParent, node?_modify, if_neg hother.symm]
  refine ⟨freed.recast id c.kind c.range, ?_, ?_, ⟨⟨c.kind, c.range, [], none⟩, ?_, rfl, rfl⟩, ?_⟩
  · simp only [absorb, hid, hkind, honly, hchild, popBack, hlast, popAll]
    change ((cut.children child).foldl clearParent _ |>.recast id c.kind c.range).pushBackAll id
      (cut.children child) = _
    rw [hadopted]
  · rw [recast, node?_modify, if_pos rfl, hfreed id hne, if_neg houtside]
    simp [cut, clearParent, node?_modify, hne.symm, hid, honly]
  · rw [recast, node?_modify, if_neg hne, node?_foldl_clearParent, if_neg hself, node?_modify,
      if_pos rfl, hcut]
    rfl
  · intro other hidOther hchildOther
    rw [recast, node?_modify, if_neg hidOther.symm, hfreed other hchildOther]
    simp [cut, clearParent, node?_modify, hidOther.symm, hchildOther.symm]

/-- A node of a plot is collapsed if it is a wrapper with a single child. -/
theorem Bears.exists_absorb
    {parent : Option NodeId} {id : NodeId} {kind : NodeKind} {range : TokenRange}
    {ps : List Plot} (h : a.Bears parent (.node id kind range ps))
    (hnodup : (Plot.node id kind range ps).ids.Nodup) :
    ∃ b, a.absorb id = .ok b ∧ b.Bears parent (collapsed id kind range ps) ∧
      (∀ other ∉ (Plot.node id kind range ps).ids, b.node? other = a.node? other) ∧
      ∀ other ∈ (Plot.node id kind range ps).ids, other ∉ (collapsed id kind range ps).ids →
        b.Alone other := by
  obtain ⟨hroot, hps⟩ := bears_node_iff.mp h
  unfold collapsed
  split
  · rename_i child k r qs hkind
    obtain ⟨hchild, hqs⟩ := bears_node_iff.mp (hps _ List.mem_cons_self)
    simp only [ids, List.flatMap_singleton] at hnodup ⊢
    obtain ⟨hid, hchildNew, hqsNodup⟩ : id ∉ child :: qs.flatMap ids ∧
        child ∉ qs.flatMap ids ∧ (qs.flatMap ids).Nodup := by
      rw [List.nodup_cons, List.nodup_cons] at hnodup
      exact hnodup
    rw [List.mem_cons, not_or] at hid
    have hroots : ∀ other ∈ qs.map root, other ∈ qs.flatMap ids := by
      intro other hother
      obtain ⟨q, hq, rfl⟩ := List.mem_map.mp hother
      exact ids_subset_flatMap hq _ q.root_mem_ids
    obtain ⟨a₁, habsorb, hnode₁, halone₁, hother₁⟩ := absorb_of_wrapper hroot hkind rfl hchild
      hid.1 (fun hmem => hid.2 (hroots id hmem)) fun hmem => hchildNew (hroots child hmem)
    have hqs₁ : ∀ q ∈ qs, a₁.Bears none q := by
      intro q hq
      have hne : ∀ other ∈ q.ids, other ≠ id ∧ other ≠ child := by
        intro other hother
        have hmem := ids_subset_flatMap hq other hother
        constructor <;> rintro rfl
        · exact hid.2 hmem
        · exact hchildNew hmem
      refine (hqs q hq).reparent (nodup_ids_of_mem hqsNodup hq) ?_ ?_
      · have hq' := hne _ q.root_mem_ids
        rw [hother₁ _ hq'.1 hq'.2, if_pos (List.mem_map_of_mem hq)]
      · intro other hother hotherNe
        have hother' := hne other hother
        rw [hother₁ _ hother'.1 hother'.2, if_neg]
        intro hmem
        obtain ⟨sibling, hsibling, rfl⟩ := List.mem_map.mp hmem
        rw [eq_of_mem_ids hqsNodup hsibling hq sibling.root_mem_ids hother] at hotherNe
        exact hotherNe rfl
    obtain ⟨b, hpush, -, hnode, hbears, hsame⟩ :=
      exists_pushBackAll hqs₁ hqsNodup hnode₁ hid.2
    refine ⟨b, habsorb.trans hpush, bears_node_iff.mpr ⟨by simpa using hnode, hbears⟩, ?_, ?_⟩
    · intro other hother
      rw [List.mem_cons, List.mem_cons, not_or, not_or] at hother
      rw [hsame other hother.1 hother.2.2, hother₁ other hother.1 hother.2.1,
        if_neg fun hmem => hother.2.2 (hroots other hmem)]
    · -- The only number that is dropped is that of the child.
      intro other hother hdropped
      rw [List.mem_cons, List.mem_cons] at hother
      rw [List.mem_cons, not_or] at hdropped
      obtain rfl := (hother.resolve_left hdropped.1).resolve_right hdropped.2
      exact halone₁.congr (hsame other hdropped.1 hdropped.2)
  · rename_i hnot
    refine ⟨a, ?_, h, fun _ _ => rfl, fun _ hmem hnot => absurd hmem hnot⟩
    simp only [absorb, hroot]
    split
    · rename_i child hkind honly
      obtain ⟨⟨child, k, r, qs⟩, rfl, -⟩ := List.map_eq_singleton_iff.mp honly
      exact absurd rfl (hnot child k r qs hkind)
    · rfl

/-! ## All nodes -/

theorem absorbAll_append
    {front : List NodeId} (h : a.absorbAll front = .ok b) (back : List NodeId) :
    a.absorbAll (front ++ back) = b.absorbAll back := by
  induction front generalizing a with
  | nil =>
      cases h
      rfl
  | cons id front ih =>
      simp only [absorbAll] at h
      split at h
      · rename_i a₁ hid
        rw [List.cons_append, absorbAll, hid]
        exact ih h
      · cases h

theorem size_absorbAll
    {ids : List NodeId} (h : a.absorbAll ids = .ok b) : b.size = a.size := by
  induction ids generalizing a with
  | nil =>
      cases h
      rfl
  | cons id ids ih =>
      rw [absorbAll] at h
      split at h
      · rename_i c habsorb
        rw [ih h, size_absorb habsorb]
      · cases h

theorem size_simplify
    {root : NodeId} (h : a.simplify root = .ok b) : b.size = a.size :=
  size_absorbAll h

/-- Collapsing the nodes of the plot, every node after its descendants, collapses the plot. -/
def Simplifies (p : Plot) : Prop :=
  ∀ (a : Arena) (parent : Option NodeId), a.Bears parent p → p.ids.Nodup →
    ∃ b, a.absorbAll p.postorder = .ok b ∧ b.Bears parent p.simplified ∧
      (∀ other ∉ p.ids, b.node? other = a.node? other) ∧
      ∀ other ∈ p.ids, other ∉ p.simplified.ids → b.Alone other

theorem exists_absorbAll
    {ps : List Plot} {parent : Option NodeId} (hsimplifies : ∀ p ∈ ps, Simplifies p)
    (hps : ∀ p ∈ ps, a.Bears parent p) (hnodup : (ps.flatMap ids).Nodup) :
    ∃ b, a.absorbAll (ps.flatMap postorder) = .ok b ∧
      (∀ p ∈ ps, b.Bears parent p.simplified) ∧
      (∀ other ∉ ps.flatMap ids, b.node? other = a.node? other) ∧
      ∀ other ∈ ps.flatMap ids, other ∉ (ps.map simplified).flatMap ids → b.Alone other := by
  induction ps generalizing a with
  | nil => exact ⟨a, rfl, by simp, fun _ _ => rfl, by simp⟩
  | cons p ps ih =>
      rw [List.flatMap_cons, List.nodup_append'] at hnodup
      obtain ⟨hp, hrest, hdisjoint⟩ := hnodup
      obtain ⟨a₁, hfirst, hbears₁, hsame₁, halone₁⟩ :=
        hsimplifies p List.mem_cons_self a parent (hps p List.mem_cons_self) hp
      have hps₁ : ∀ q ∈ ps, a₁.Bears parent q := by
        intro q hq
        apply (hps q (List.mem_cons_of_mem p hq)).congr
        intro id hid
        apply hsame₁ id
        intro hmem
        exact hdisjoint hmem (ids_subset_flatMap hq id hid)
      obtain ⟨b, hall, hbears, hsame, halone⟩ :=
        ih (fun q hq => hsimplifies q (List.mem_cons_of_mem p hq)) hps₁ hrest
      refine ⟨b, ?_, ?_, ?_, ?_⟩
      · rw [List.flatMap_cons, absorbAll_append hfirst, hall]
      · intro q hq
        rcases List.mem_cons.mp hq with rfl | hq
        · apply hbears₁.congr
          intro id hid
          apply hsame id
          intro hmem
          exact hdisjoint (q.ids_simplified_sublist.subset hid) hmem
        · exact hbears q hq
      · intro other hother
        rw [List.flatMap_cons, List.mem_append, not_or] at hother
        rw [hsame other hother.2, hsame₁ other hother.1]
      · intro other hother hdropped
        rw [List.flatMap_cons, List.mem_append] at hother
        rw [List.map_cons, List.flatMap_cons, List.mem_append, not_or] at hdropped
        rcases hother with hother | hother
        · exact (halone₁ other hother hdropped.1).congr (hsame other (hdisjoint hother))
        · exact halone other hother hdropped.2

theorem simplifies
    (p : Plot) : Simplifies p := by
  induction p with
  | node id kind range ps ih =>
      intro a parent h hnodup
      obtain ⟨hroot, hps⟩ := bears_node_iff.mp h
      obtain ⟨hid, hbelow⟩ : id ∉ ps.flatMap ids ∧ (ps.flatMap ids).Nodup := by
        rwa [ids, List.nodup_cons] at hnodup
      obtain ⟨a₁, hall, hbears₁, hsame₁, halone₁⟩ := exists_absorbAll ih hps hbelow
      -- The plots below the node are collapsed, and the node still has their roots as children.
      have hnode₁ : a₁.Bears parent (.node id kind range (ps.map simplified)) := by
        refine bears_node_iff.mpr ⟨?_, ?_⟩
        · rw [hsame₁ id hid, hroot]
          simp [Function.comp_def]
        · intro q hq
          obtain ⟨p, hp, rfl⟩ := List.mem_map.mp hq
          exact hbears₁ p hp
      have hsublist : (Plot.node id kind range (ps.map simplified)).ids.Sublist
          (Plot.node id kind range ps).ids := by
        rw [ids, ids]
        exact (flatMap_ids_sublist fun p _ => p.ids_simplified_sublist).cons_cons id
      obtain ⟨b, habsorb, hbears, hsame, halone⟩ :=
        hnode₁.exists_absorb (hnodup.sublist hsublist)
      refine ⟨b, ?_, ?_, ?_, ?_⟩
      · rw [postorder, absorbAll_append hall]
        simp only [absorbAll, habsorb]
      · rwa [simplified]
      · intro other hother
        rw [hsame other fun hmem => hother (hsublist.subset hmem), hsame₁ other]
        rw [ids, List.mem_cons, not_or] at hother
        exact hother.2
      · -- A number is dropped below the node, or by the node itself.
        intro other hother hdropped
        by_cases hkept : other ∈ (Plot.node id kind range (ps.map simplified)).ids
        · rw [simplified] at hdropped
          exact halone other hkept hdropped
        · refine (halone₁ other ?_ ?_).congr (hsame other hkept)
          · rw [ids, List.mem_cons] at hother hkept
            exact hother.resolve_left fun heq => hkept (.inl heq)
          · rw [ids, List.mem_cons, not_or] at hkept
            exact hkept.2

/-- A plot is collapsed in the order of its nodes. -/
theorem Bears.descendants_eq
    {parent : Option NodeId} {p : Plot} (h : a.Bears parent p) (hnodup : p.ids.Nodup) :
    a.descendants a.size [p.root] [] = p.postorder := by
  have horder : a.descendants a.size ([p].map root) [] = [p].reverse.flatMap postorder ++ [] :=
    Arena.descendants_eq (by simpa using ⟨parent, h⟩) (by simpa using h.length_ids_le hnodup) []
  simpa only [List.map_cons, List.map_nil, List.reverse_singleton, List.flatMap_singleton,
    List.append_nil] using horder

/-- Every wrapper of a plot is collapsed, and nothing outside the plot changes; the nodes that are
no longer in the plot stand alone. -/
theorem Bears.exists_simplify
    {parent : Option NodeId} {p : Plot} (h : a.Bears parent p) (hnodup : p.ids.Nodup) :
    ∃ b, a.simplify p.root = .ok b ∧ b.Bears parent p.simplified ∧
      (∀ other ∉ p.ids, b.node? other = a.node? other) ∧
      ∀ other ∈ p.ids, other ∉ p.simplified.ids → b.Alone other := by
  obtain ⟨b, hall, hbears⟩ := simplifies p a parent h hnodup
  refine ⟨b, ?_, hbears⟩
  rw [simplify, h.descendants_eq hnodup, hall]

end Arena

end ExprFront
