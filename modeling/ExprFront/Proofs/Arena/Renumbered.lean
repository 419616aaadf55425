import ExprFront.Arena.Printer
import ExprFront.Proofs.Arena.Counted

/-!
# Copies up to numbers

The copy of a subtree is the subtree under other numbers. Two plots with the
same tree differ by a renumbering of their nodes, which is one-to-one where the
numbers of each are distinct. Where an arena bears a plot and another one bears
the renumbered plot, every node has a counterpart with the same kind, range and
children, and the check of the one finds what the check of the other finds.
-/

namespace ExprFront

namespace Plot

/-- The plot under other numbers. -/
def renumbered (number : NodeId → NodeId) : Plot → Plot
  | node id kind range ps => node (number id) kind range (ps.map (renumbered number))

@[simp] theorem root_renumbered
    (number : NodeId → NodeId) (p : Plot) : (p.renumbered number).root = number p.root := by
  obtain ⟨id, kind, range, ps⟩ := p
  rw [renumbered]
  rfl

theorem ids_renumbered
    (number : NodeId → NodeId) (p : Plot) : (p.renumbered number).ids = p.ids.map number := by
  induction p with
  | node id kind range ps ih =>
      rw [renumbered, ids, ids, List.map_cons, List.flatMap_map, List.map_flatMap,
        List.flatMap_congr ih]

theorem tree_renumbered
    (number : NodeId → NodeId) (p : Plot) : (p.renumbered number).tree = p.tree := by
  induction p with
  | node id kind range ps ih =>
      rw [renumbered, tree, tree, List.map_map]
      congr 1
      exact List.map_congr_left ih

/-- Plots with the same trees have as many numbers as each other, so each has its own share of the
numbers of all. -/
theorem eq_of_map_tree_eq
    {ps qs : List Plot}
    (hps : ∀ p ∈ ps, ∀ q : Plot, p.tree = q.tree → p.ids = q.ids → p = q)
    (htrees : ps.map tree = qs.map tree) (hids : ps.flatMap ids = qs.flatMap ids) : ps = qs := by
  induction ps generalizing qs with
  | nil => exact (List.map_eq_nil_iff.mp htrees.symm).symm
  | cons p ps ih =>
      cases qs with
      | nil => cases htrees
      | cons q qs =>
          obtain ⟨hfirst, hmore⟩ := List.cons.inj htrees
          rw [List.flatMap_cons, List.flatMap_cons] at hids
          have hlength : p.ids.length = q.ids.length := by
            rw [length_ids, length_ids, hfirst]
          obtain ⟨hheads, htails⟩ := List.append_inj hids hlength
          rw [hps p List.mem_cons_self q hfirst hheads,
            ih (fun r hr => hps r (List.mem_cons_of_mem p hr)) hmore htails]

/-- A plot is settled by its tree and its numbers. -/
theorem eq_of_tree_eq
    {p q : Plot} (htree : p.tree = q.tree) (hids : p.ids = q.ids) : p = q := by
  induction p generalizing q with
  | node id kind range ps ih =>
      obtain ⟨id', kind', range', qs⟩ := q
      rw [tree, tree, Tree.node.injEq] at htree
      obtain ⟨rfl, rfl, htrees⟩ := htree
      rw [ids, ids, List.cons.injEq] at hids
      obtain ⟨rfl, hbelow⟩ := hids
      rw [eq_of_map_tree_eq (fun p hp q => ih p hp) htrees hbelow]

/-- Plots with the same tree differ by their numbers only. -/
theorem exists_renumbered_eq
    {p q : Plot} (hnodup : p.ids.Nodup) (htree : q.tree = p.tree) :
    ∃ number, p.renumbered number = q := by
  have hlength : p.ids.length = q.ids.length := by
    rw [length_ids, length_ids, htree]
  refine ⟨fun id => q.ids.getD (p.ids.idxOf id) 0, eq_of_tree_eq ?_ ?_⟩
  · rw [tree_renumbered, htree]
  · rw [ids_renumbered]
    apply List.ext_getElem
    · rw [List.length_map, hlength]
    · intro i hi hi'
      rw [List.length_map] at hi
      rw [List.getElem_map, hnodup.idxOf_getElem i hi, List.getD_eq_getElem?_getD,
        List.getElem?_eq_getElem hi', Option.getD_some]

end Plot

namespace Arena

open Plot

variable {a b source : Arena} {above above' : Option NodeId} {p q : Plot} {id : NodeId}
  {number : NodeId → NodeId}

/-! ## Nodes -/

/-- A node of a plot and its counterpart in the renumbered plot. -/
theorem Bears.exists_counterpart
    (h : source.Bears above p) (h' : b.Bears above' (p.renumbered number)) (hnodup : p.ids.Nodup)
    (hid : id ∈ p.ids) :
    ∃ n, source.node? id = some n ∧
      b.node? (number id) = some ⟨n.kind, n.range, n.children.map number,
        if id = p.root then above' else n.parent.map number⟩ := by
  induction p generalizing above above' with
  | node top kind range ps ih =>
      rw [renumbered] at h'
      obtain ⟨hroot, hps⟩ := bears_node_iff.mp h
      obtain ⟨hroot', hps'⟩ := bears_node_iff.mp h'
      rw [ids, List.nodup_cons] at hnodup
      rw [ids, List.mem_cons, List.mem_flatMap] at hid
      rcases hid with rfl | ⟨p, hp, hid⟩
      · refine ⟨_, hroot, ?_⟩
        simp [hroot', Function.comp_def]
      · have hne : id ≠ top := by
          rintro rfl
          exact hnodup.1 (ids_subset_flatMap hp id hid)
        obtain ⟨n, hnode, hcopy⟩ := ih p hp (hps p hp) (hps' _ (List.mem_map_of_mem hp))
          (nodup_ids_of_mem hnodup.2 hp) hid
        refine ⟨n, hnode, ?_⟩
        rw [hcopy, root_node, if_neg hne]
        by_cases hidRoot : id = p.root
        · obtain ⟨children, hchild⟩ := (hps p hp).node?_root
          rw [← hidRoot, hnode] at hchild
          rw [if_pos hidRoot, Option.some.inj hchild]
          rfl
        · rw [if_neg hidRoot]

/-! ## Checks -/

/-- The breach under other numbers. -/
def Breach.renumbered (number : NodeId → NodeId) : Breach → Breach
  | wrongParent child parent => wrongParent (number child) (parent.map number)
  | other => other

/-- The violation under other numbers. -/
def Violation.renumbered (number : NodeId → NodeId) (v : Violation) : Violation :=
  ⟨number v.node, v.kind, v.breach.renumbered number⟩

/-- What a node breaks by itself does not depend on numbers. -/
theorem ownBreach?_renumbered
    (number : NodeId → NodeId) (kind : NodeKind) (range : TokenRange) (children : List NodeId)
    (above above' : Option NodeId) :
    ownBreach? ⟨kind, range, children.map number, above'⟩ =
      (ownBreach? ⟨kind, range, children, above⟩).map (Breach.renumbered number) := by
  simp only [ownBreach?, List.length_map]
  split
  · rfl
  · split <;> rfl

/-- A child that names its parent breaks the same rules under every number. -/
theorem childBreach?_renumbered
    (number : NodeId → NodeId) {n n' : Node} (hrange : n'.range = n.range) (id : NodeId)
    (cursor : Nat) (child : NodeId) (kind : NodeKind) (range : TokenRange)
    (children children' : List NodeId) :
    childBreach? (number id) n' cursor (number child) ⟨kind, range, children', some (number id)⟩ =
      (childBreach? id n cursor child ⟨kind, range, children, some id⟩).map
        (Breach.renumbered number) := by
  simp only [childBreach?, ne_eq, not_true_eq_false, if_false, hrange]
  split
  · rfl
  · split <;> rfl

theorem checkChildren_renumbered
    {levels levels' : Nat} {n n' : Node} {ps : List Plot} {cursor : Nat}
    (hkind : n'.kind = n.kind) (hrange : n'.range = n.range)
    (hps : ∀ p ∈ ps, source.Bears (some id) p)
    (hps' : ∀ p ∈ ps, b.Bears (some (number id)) (p.renumbered number))
    (hcheck : ∀ p ∈ ps, b.checkWithin levels' (number p.root) =
      (source.checkWithin levels p.root).mapError (Violation.renumbered number)) :
    b.checkChildren (b.checkWithin levels') (number id) n' cursor
        ((ps.map root).map number) =
      (source.checkChildren (source.checkWithin levels) id n cursor (ps.map root)).mapError
        (Violation.renumbered number) := by
  induction ps generalizing cursor with
  | nil => rfl
  | cons p ps ih =>
      obtain ⟨children, hnode⟩ := (hps p List.mem_cons_self).node?_root
      obtain ⟨children', hnode'⟩ := (hps' p List.mem_cons_self).node?_root
      rw [root_renumbered] at hnode'
      have hsame : (p.renumbered number).kind = p.kind ∧
          (p.renumbered number).range = p.range := by
        obtain ⟨top, kind, range, qs⟩ := p
        rw [renumbered]
        exact ⟨rfl, rfl⟩
      rw [hsame.1, hsame.2] at hnode'
      have hmore := fun q hq => hps q (List.mem_cons_of_mem p hq)
      have hmore' := fun q hq => hps' q (List.mem_cons_of_mem p hq)
      have hchecked := fun q hq => hcheck q (List.mem_cons_of_mem p hq)
      simp only [List.map_cons, checkChildren, hnode, hnode']
      rw [childBreach?_renumbered number hrange id cursor p.root p.kind p.range children children',
        hcheck p List.mem_cons_self]
      cases childBreach? id n cursor p.root ⟨p.kind, p.range, children, some id⟩ with
      | some breach =>
          rw [Option.map_some, hkind]
          rfl
      | none =>
          rw [Option.map_none]
          cases source.checkWithin levels p.root with
          | error v => rfl
          | ok _ => exact ih hmore hmore' hchecked

/-- Under other numbers, a plot breaks the same rules in the same order. The levels do not matter
if there are enough. -/
theorem Bears.checkWithin_renumbered
    {levels levels' : Nat} (h : source.Bears above p) (h' : b.Bears above' (p.renumbered number))
    (hlevels : p.ids.length ≤ levels) (hlevels' : p.ids.length ≤ levels') :
    b.checkWithin levels' (number p.root) =
      (source.checkWithin levels p.root).mapError (Violation.renumbered number) := by
  induction p generalizing above above' levels levels' with
  | node top kind range ps ih =>
      rw [renumbered] at h'
      obtain ⟨hroot, hps⟩ := bears_node_iff.mp h
      obtain ⟨hroot', hps'⟩ := bears_node_iff.mp h'
      rw [ids, List.length_cons] at hlevels hlevels'
      obtain ⟨levels, rfl⟩ : ∃ less, levels = less + 1 := ⟨levels - 1, by omega⟩
      obtain ⟨levels', rfl⟩ : ∃ less, levels' = less + 1 := ⟨levels' - 1, by omega⟩
      have hroots : (ps.map (Plot.renumbered number)).map root = (ps.map root).map number := by
        simp [Function.comp_def]
      rw [hroots] at hroot'
      have hbelow : ∀ p ∈ ps, b.Bears (some (number top)) (p.renumbered number) :=
        fun p hp => hps' _ (List.mem_map_of_mem hp)
      have hcheck : ∀ p ∈ ps, b.checkWithin levels' (number p.root) =
          (source.checkWithin levels p.root).mapError (Violation.renumbered number) := by
        intro p hp
        have := length_ids_le_flatMap hp
        exact ih p hp (hps p hp) (hbelow p hp) (by omega) (by omega)
      simp only [checkWithin, root_node, hroot, hroot']
      rw [ownBreach?_renumbered number kind range (ps.map root) above above']
      cases ownBreach? ⟨kind, range, ps.map root, above⟩ with
      | some breach => rfl
      | none => exact checkChildren_renumbered rfl rfl hps hbelow hcheck

/-! ## Copies -/

/-- The second arena is the first one with a copy of a subtree of the source, whose nodes have the
numbers that `number` gives them. -/
structure CopiesBelow (source a b : Arena) (id root : NodeId) (number : NodeId → NodeId) :
    Prop where
  root_eq : number id = root
  same : ∀ other < a.size, b.node? other = a.node? other
  node : ∀ x, source.Reaches id x → ∃ n, source.node? x = some n ∧
    b.node? (number x) = some ⟨n.kind, n.range, n.children.map number,
      if x = id then none else n.parent.map number⟩
  injective : ∀ x y, source.Reaches id x → source.Reaches id y → number x = number y → x = y
  new_iff : ∀ y, (a.size ≤ y ∧ y < b.size) ↔ ∃ x, source.Reaches id x ∧ number x = y
  tree : ∃ t, source.tree? id = some t ∧ b.tree? root = some t ∧ b.size = a.size + t.size
  check_eq : b.check root = (source.check id).mapError (Violation.renumbered number)
  sexpr_eq : ∀ tokens, b.sexpr tokens root = source.sexpr tokens id

/-- The new numbers are those of a gained plot if there are as many. -/
theorem Gains.mem_ids_iff
    (h : a.Gains b [p]) (hsize : b.size = a.size + p.ids.length) :
    id ∈ p.ids ↔ a.size ≤ id ∧ id < b.size := by
  have hp := List.mem_singleton_self p
  have hbounds : ∀ other ∈ p.ids, a.size ≤ other ∧ other < b.size := fun other hother =>
    ⟨h.fresh other (ids_subset_flatMap hp other hother), (h.bears p hp).lt_size other hother⟩
  refine ⟨hbounds id, fun hid => ?_⟩
  have hsubset : p.ids ⊆ List.range' a.size p.ids.length := by
    intro other hother
    rw [List.mem_range'_1, ← hsize]
    exact hbounds other hother
  have hperm := ((nodup_ids_of_mem h.nodup hp).subperm hsubset).perm_of_length_le (by simp)
  rw [hperm.mem_iff, List.mem_range'_1, ← hsize]
  exact hid

/-- The subtree of a node with consistent links is copied exactly: every node has its copy, and
nothing else is added or changed. -/
theorem exists_copiesBelow_of_linkedBelow
    (source a : Arena) (id : NodeId) (h : source.LinkedBelow id) :
    ∃ root b number, a.copyTree source id = .ok (root, b) ∧
      source.CopiesBelow a b id root number := by
  obtain ⟨p, rfl, hp, hnodup⟩ := h.exists_bears
  obtain ⟨q, b, hcopy, htree, hgains⟩ := exists_copyTree a hp hnodup
  have hsize := size_copyTree hp hcopy
  obtain ⟨number, rfl⟩ := exists_renumbered_eq hnodup htree
  have hmem := List.mem_singleton_self (p.renumbered number)
  have hq := hgains.bears _ hmem
  have hnodup' := nodup_ids_of_mem hgains.nodup hmem
  have hlength := hp.length_ids_le hnodup
  have hlength' := hq.length_ids_le hnodup'
  have hsourceTree := hp.tree?_eq hnodup
  have hcopyTree := hq.tree?_eq hnodup'
  rw [tree_renumbered] at hcopyTree
  rw [ids_renumbered] at hnodup' hlength'
  rw [List.length_map] at hlength'
  have hnew : ∀ y, y ∈ p.ids.map number ↔ a.size ≤ y ∧ y < b.size := by
    intro y
    rw [← ids_renumbered]
    apply hgains.mem_ids_iff
    rw [hsize, length_ids, tree_renumbered]
  refine ⟨_, b, number, hcopy, ?_⟩
  exact {
    root_eq := (root_renumbered number p).symm
    same := hgains.extended
    node := fun x hx => hp.exists_counterpart hq hnodup (hp.mem_ids_iff.mpr hx)
    injective := fun x y hx hy =>
      List.inj_on_of_nodup_map hnodup' (hp.mem_ids_iff.mpr hx) (hp.mem_ids_iff.mpr hy)
    new_iff := by
      intro y
      rw [← hnew, List.mem_map]
      simp only [hp.mem_ids_iff]
    tree := ⟨p.tree, hsourceTree, hcopyTree, hsize⟩
    check_eq := by
      rw [root_renumbered]
      exact hp.checkWithin_renumbered hq (Nat.le_succ_of_le hlength) (Nat.le_succ_of_le hlength')
    sexpr_eq := by
      intro tokens
      rw [sexpr_eq_of_tree? _ _ _ _ hcopyTree, sexpr_eq_of_tree? _ _ _ _ hsourceTree] }

/-- The nodes of `a + -b` and, besides them, a node that lies below itself. -/
def sampleSum : Arena :=
  ⟨#[⟨.operation .addition, ⟨0, 4⟩, [2, 3], none⟩, ⟨.identifier, ⟨3, 4⟩, [], some 3⟩,
    ⟨.identifier, ⟨0, 1⟩, [], some 0⟩, ⟨.operation .unaryMinus, ⟨2, 4⟩, [1], some 0⟩,
    ⟨.arguments, ⟨0, 0⟩, [4], some 4⟩]⟩

theorem linkedBelow_sampleSum : sampleSum.LinkedBelow 0 := by
  let p : Plot := .node 0 (.operation .addition) ⟨0, 4⟩ [.node 2 .identifier ⟨0, 1⟩ [],
    .node 3 (.operation .unaryMinus) ⟨2, 4⟩ [.node 1 .identifier ⟨3, 4⟩ []]]
  have hids : p.ids = [0, 2, 3, 1] := by simp [p, ids]
  have hp : sampleSum.Bears none p := by
    simp [p, bears_node_iff, sampleSum, node?]
  exact hp.linkedBelow (by rw [hids]; decide)

/-- The sum is copied behind a node that is there already, without the cycle besides it. -/
theorem exists_copiesBelow_of_linkedBelow_sample :
    sampleSum.LinkedBelow 0 ∧
      ∃ root b number, (Arena.empty.add .program ⟨0, 4⟩).2.copyTree sampleSum 0 = .ok (root, b) ∧
        sampleSum.CopiesBelow (Arena.empty.add .program ⟨0, 4⟩).2 b 0 root number :=
  ⟨linkedBelow_sampleSum,
    exists_copiesBelow_of_linkedBelow sampleSum _ 0 linkedBelow_sampleSum⟩

end Arena

end ExprFront
