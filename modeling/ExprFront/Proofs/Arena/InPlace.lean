import ExprFront.Proofs.Arena.Linked

/-!
# Collapsing in a linked arena

In a linked arena the subtree of every node can be collapsed. What is said of
plots when they are collapsed is said here of nodes: the subtree becomes its
collapsed tree, its root keeps its number and its place below its parent,
nothing else changes, the links stay consistent, and every node that drops out
stands alone. A collapsed subtree has no wrapper with a single child left, so
nothing happens when it is collapsed once more.
-/

namespace ExprFront

namespace Plot

/-- No wrapper of the plot has a single child. -/
def Settled : Plot → Prop
  | node _ kind _ ps => ¬ (kind.isWrapper = true ∧ ps.length = 1) ∧ ∀ p ∈ ps, p.Settled

theorem settled_node_iff
    {id : NodeId} {kind : NodeKind} {range : TokenRange} {ps : List Plot} :
    (node id kind range ps).Settled ↔
      ¬ (kind.isWrapper = true ∧ ps.length = 1) ∧ ∀ p ∈ ps, p.Settled := by
  rw [Settled]

theorem settled_collapsed
    (id : NodeId) (kind : NodeKind) (range : TokenRange) {ps : List Plot}
    (hps : ∀ p ∈ ps, p.Settled) : (collapsed id kind range ps).Settled := by
  unfold collapsed
  split
  · have honly := hps _ List.mem_cons_self
    exact settled_node_iff.mpr (settled_node_iff.mp honly)
  · rename_i hnot
    refine settled_node_iff.mpr ⟨?_, hps⟩
    rintro ⟨hkind, hlength⟩
    obtain ⟨⟨child, k, r, qs⟩, rfl⟩ := List.length_eq_one_iff.mp hlength
    exact hnot child k r qs hkind rfl

/-- Collapsing leaves no wrapper with a single child. -/
theorem settled_simplified
    (p : Plot) : p.simplified.Settled := by
  induction p with
  | node id kind range ps ih =>
      rw [simplified]
      exact settled_collapsed id kind range (List.forall_mem_map.mpr ih)

end Plot

namespace Arena

open Plot

variable {a b : Arena} {parent : Option NodeId} {p : Plot} {id : NodeId}

/-! ## Nothing left to collapse -/

theorem Bears.absorb_eq_self
    (h : a.Bears parent p) (hsettled : p.Settled) (hid : id ∈ p.ids) : a.absorb id = .ok a := by
  induction p generalizing parent with
  | node top kind range ps ih =>
      obtain ⟨hroot, hps⟩ := bears_node_iff.mp h
      obtain ⟨hnot, hbelow⟩ := settled_node_iff.mp hsettled
      rw [ids, List.mem_cons, List.mem_flatMap] at hid
      rcases hid with rfl | ⟨p, hp, hid⟩
      · simp only [absorb, hroot]
        split
        · rename_i hkind honly
          have hlength := congrArg List.length honly
          rw [List.length_map] at hlength
          exact absurd ⟨hkind, hlength⟩ hnot
        · rfl
      · exact ih p hp (hps p hp) (hbelow p hp) hid

theorem absorbAll_eq_self
    {ids : List NodeId} (h : ∀ id ∈ ids, a.absorb id = .ok a) : a.absorbAll ids = .ok a := by
  induction ids with
  | nil => rfl
  | cons id ids ih =>
      simp only [absorbAll, h id List.mem_cons_self]
      exact ih fun other hother => h other (List.mem_cons_of_mem id hother)

/-- A plot in which there is nothing to collapse is left as it is. -/
theorem Bears.simplify_eq_self
    (h : a.Bears parent p) (hnodup : p.ids.Nodup) (hsettled : p.Settled) :
    a.simplify p.root = .ok a := by
  rw [simplify, h.descendants_eq hnodup]
  exact absorbAll_eq_self fun id hid => h.absorb_eq_self hsettled (p.postorder_subset hid)

/-! ## Checks -/

theorem ownBreach?_eq_none_iff
    {n : Node} :
    ownBreach? n = none ↔
      n.kind.arity.admits n.children.length = true ∧
        (n.kind.isLeaf = true → n.range.length = 1) := by
  unfold ownBreach?
  cases n.kind.arity.admits n.children.length <;> simp

theorem childBreach?_eq_none_iff
    {n c : Node} {cursor : Nat} {child : NodeId} :
    childBreach? id n cursor child c = none ↔
      c.parent = some id ∧ n.range.contains c.range = true ∧ cursor ≤ c.range.start := by
  unfold childBreach?
  by_cases hparent : c.parent = some id <;> cases n.range.contains c.range <;> simp [hparent]

theorem arranged_of_checkChildren
    {levels : Nat} {n : Node} {ps : List Plot} {cursor : Nat}
    (hps : ∀ p ∈ ps, a.Bears (some id) p)
    (hwell : ∀ p ∈ ps, a.checkWithin levels p.root = .ok () → p.tree.WellFormed)
    (h : a.checkChildren (a.checkWithin levels) id n cursor (ps.map root) = .ok ()) :
    Tree.Arranged n.range cursor (ps.map tree) := by
  induction ps generalizing cursor with
  | nil => trivial
  | cons p ps ih =>
      obtain ⟨ids, hnode⟩ := (hps p List.mem_cons_self).node?_root
      simp only [List.map_cons, checkChildren, hnode] at h
      split at h
      · cases h
      · rename_i hbreach
        obtain ⟨-, hinside, hcursor⟩ := childBreach?_eq_none_iff.mp hbreach
        split at h
        · rename_i hcheck
          refine ⟨by simpa using hinside, by simpa using hcursor, hwell p List.mem_cons_self hcheck,
            ?_⟩
          have hlater := ih (fun q hq => hps q (List.mem_cons_of_mem p hq))
            (fun q hq => hwell q (List.mem_cons_of_mem p hq)) h
          simpa using hlater
        · cases h

theorem Bears.wellFormed_of_checkWithin
    {levels : Nat} (h : a.Bears parent p) (hcheck : a.checkWithin levels p.root = .ok ()) :
    p.tree.WellFormed := by
  induction p generalizing parent levels with
  | node top kind range ps ih =>
      obtain ⟨hroot, hps⟩ := bears_node_iff.mp h
      cases levels with
      | zero => cases hcheck
      | succ levels =>
          simp only [checkWithin, root_node, hroot] at hcheck
          split at hcheck
          · cases hcheck
          · rename_i hbreach
            obtain ⟨harity, hleaf⟩ := ownBreach?_eq_none_iff.mp hbreach
            rw [Plot.tree]
            refine ⟨by simpa using harity, hleaf, ?_⟩
            exact arranged_of_checkChildren hps (fun p hp => ih p hp (hps p hp)) hcheck

/-- The tree of a plot is well-formed if its check goes through. -/
theorem Bears.wellFormed_of_check
    (h : a.Bears parent p) (hcheck : a.check p.root = .ok ()) : p.tree.WellFormed :=
  h.wellFormed_of_checkWithin hcheck

/-! ## Collapsed subtrees -/

/-- The second arena is the first one with the subtree of a node collapsed in its place. -/
structure CollapsedAt (a b : Arena) (root : NodeId) : Prop where
  tree : ∃ t, a.tree? root = some t ∧ b.tree? root = some t.simplified
  parent_eq : b.parent root = a.parent root
  place : ∀ above, a.parent root = some above → b.children above = a.children above
  same : ∀ id, ¬ a.Reaches root id → b.node? id = a.node? id
  size_eq : b.size = a.size
  linked : b.Linked
  alone : ∀ id, a.Reaches root id → ¬ b.Reaches root id → b.Alone id
  check : a.check root = .ok () → b.check root = .ok ()

/-- In a linked arena the subtree of every node is collapsed in its place, and collapsing it once
more changes nothing. -/
theorem exists_collapsedAt_of_linked
    (a : Arena) (hlinked : a.Linked) (root : NodeId) (hroot : root < a.size) :
    ∃ b, a.simplify root = .ok b ∧ a.CollapsedAt b root ∧ b.simplify root = .ok b := by
  obtain ⟨p, rfl, hp, hnodup⟩ := hlinked.exists_bears hroot
  obtain ⟨b, hsimplify, hq, hsame, halone⟩ := hp.exists_simplify hnodup
  have hnodup' := hnodup.sublist p.ids_simplified_sublist
  have hparent := hq.parent_eq
  have htree := hq.tree?_eq hnodup'
  have hagain := hq.simplify_eq_self hnodup' p.settled_simplified
  rw [root_simplified] at hparent htree hagain
  refine ⟨b, hsimplify, ?_, hagain⟩
  exact {
    tree := ⟨p.tree, hp.tree?_eq hnodup, by rw [htree, tree_simplified]⟩
    parent_eq := hparent
    place := by
      intro above habove
      rw [habove] at hp
      rw [children, children, hsame above (hlinked.not_mem_ids hp)]
    same := fun id hid => hsame id (mt hp.mem_ids_iff.mp hid)
    size_eq := size_simplify hsimplify
    linked := hlinked.rearrange hp hq hnodup' p.root_simplified p.ids_simplified_sublist.subset
      hsame halone
    alone := by
      intro id hid hdropped
      refine halone id (hp.mem_ids_iff.mpr hid) fun hkept => hdropped ?_
      rw [← p.root_simplified]
      exact hq.mem_ids_iff.mp hkept
    check := by
      intro hcheck
      have hwell := (hp.wellFormed_of_check hcheck).simplified_and_contains.1
      rw [← tree_simplified] at hwell
      rw [← p.root_simplified]
      exact hq.check_eq_ok hnodup' hwell }

/-- The program `(x);`, with the node of its statement and that of its parentheses. -/
def sampleWrapped : Arena :=
  ⟨#[⟨.program, ⟨0, 4⟩, [1], none⟩, ⟨.expression, ⟨0, 3⟩, [2], some 0⟩,
    ⟨.subexpression, ⟨0, 3⟩, [3], some 1⟩, ⟨.identifier, ⟨1, 2⟩, [], some 2⟩]⟩

theorem linked_sampleWrapped : sampleWrapped.Linked := by
  let p : Plot := .node 0 .program ⟨0, 4⟩ [.node 1 .expression ⟨0, 3⟩
    [.node 2 .subexpression ⟨0, 3⟩ [.node 3 .identifier ⟨1, 2⟩ []]]]
  have hids : p.ids = [0, 1, 2, 3] := by simp [p, ids]
  have hp : sampleWrapped.Bears none p := by
    simp [p, bears_node_iff, sampleWrapped, node?]
  refine hp.linked (by rw [hids]; decide) ?_
  rw [hids]
  decide

/-- The statement takes the place of its identifier at once for both wrappers. -/
theorem exists_collapsedAt_of_linked_sample :
    sampleWrapped.Linked ∧
      ∃ b, sampleWrapped.simplify 1 = .ok b ∧ sampleWrapped.CollapsedAt b 1 ∧
        b.simplify 1 = .ok b :=
  ⟨linked_sampleWrapped,
    exists_collapsedAt_of_linked sampleWrapped linked_sampleWrapped 1 (by decide)⟩

end Arena

end ExprFront
