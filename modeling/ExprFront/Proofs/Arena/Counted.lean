import ExprFront.Proofs.Arena.Copied
import ExprFront.Proofs.Arena.Linked
import Mathlib.Algebra.GroupWithZero.Nat

/-!
# How many nodes there are

Building a tree and copying one add as many nodes as the tree has, and attaching
and collapsing add none. So the numbers below the size of an arena can be
compared with those of a plot, and if there are as many, the plot has all nodes.

Collapsing drops the only child of every wrapper: `Plot.dropped` lists these
numbers, and together with the numbers that are kept they are those of the plot.
-/

namespace ExprFront

theorem Tree.sizeAll_eq
    (ts : List Tree) : Tree.sizeAll ts = (ts.map Tree.size).sum := by
  induction ts with
  | nil => rfl
  | cons t ts ih => rw [Tree.sizeAll, ih, List.map_cons, List.sum_cons]

theorem Tree.size_mapRanges
    (f : TokenRange → TokenRange) (t : Tree) : (t.mapRanges f).size = t.size := by
  induction t with
  | node kind range ts ih =>
      rw [mapRanges_node, size, size, sizeAll_eq, sizeAll_eq, List.map_map]
      congr 2
      exact List.map_congr_left ih

namespace Plot

/-- A plot has as many numbers as its tree has nodes. -/
theorem length_ids
    (p : Plot) : p.ids.length = p.tree.size := by
  induction p with
  | node id kind range ps ih =>
      rw [ids, tree, Tree.size, Tree.sizeAll_eq, List.map_map, List.length_cons,
        List.length_flatMap, List.map_congr_left ih, Nat.add_comm]
      rfl

/-- The child whose place a node takes when it is collapsed. -/
def absorbed (kind : NodeKind) (children : List NodeId) : List NodeId :=
  match kind.isWrapper, children with
  | true, [child] => [child]
  | _, _ => []

theorem mem_absorbed_iff
    {kind : NodeKind} {children : List NodeId} {id : NodeId} :
    id ∈ absorbed kind children ↔ kind.isWrapper = true ∧ children = [id] := by
  unfold absorbed
  split
  · rename_i child hkind
    simp [hkind, eq_comm]
  · rename_i hnot
    refine iff_of_false List.not_mem_nil ?_
    rintro ⟨hkind, rfl⟩
    exact hnot id hkind rfl

/-- The only children of wrappers, which are dropped when the plot is collapsed. -/
def dropped : Plot → List NodeId
  | node _ kind _ ps => absorbed kind (ps.map root) ++ ps.flatMap dropped

theorem ids_collapsed_perm
    (id : NodeId) (kind : NodeKind) (range : TokenRange) (ps : List Plot) :
    ((collapsed id kind range ps).ids ++ absorbed kind (ps.map root)).Perm
      (id :: ps.flatMap ids) := by
  unfold collapsed
  split
  · rename_i child k r qs hkind
    have habsorbed : absorbed kind ([node child k r qs].map root) = [child] := by
      simp [absorbed, hkind]
    rw [habsorbed, ids, List.flatMap_singleton, ids, List.cons_append]
    exact List.perm_append_comm.cons id
  · rename_i ps _ _ hnot
    have habsorbed : absorbed kind (ps.map root) = [] := by
      rw [List.eq_nil_iff_forall_not_mem]
      intro child hchild
      obtain ⟨hkind, honly⟩ := mem_absorbed_iff.mp hchild
      obtain ⟨⟨_, k, r, qs⟩, rfl, -⟩ := List.map_eq_singleton_iff.mp honly
      exact hnot _ k r qs hkind rfl
    rw [habsorbed, List.append_nil, ids]

/-- A number is kept or dropped when a plot is collapsed. -/
theorem ids_simplified_perm
    (p : Plot) : (p.simplified.ids ++ p.dropped).Perm p.ids := by
  induction p with
  | node id kind range ps ih =>
      have hbelow : ((ps.map simplified).flatMap ids ++ ps.flatMap dropped).Perm
          (ps.flatMap ids) := by
        rw [List.flatMap_map]
        exact (List.flatMap_append_perm ps _ _).trans (.flatMap_left ps ih)
      have hroots : (ps.map simplified).map root = ps.map root := by
        simp [Function.comp_def]
      have hnode := ids_collapsed_perm id kind range (ps.map simplified)
      rw [hroots] at hnode
      rw [simplified, dropped, ids, ← List.append_assoc]
      exact (hnode.append_right _).trans (hbelow.cons id)

end Plot

namespace Arena

open Plot

variable {a b source : Arena} {parent : Option NodeId} {p : Plot} {id : NodeId}

/-! ## Added nodes -/

theorem size_buildAll
    {ts : List Tree} (hts : ∀ t ∈ ts, ∀ {a b : Arena} {id : NodeId}, a.build t = .ok (id, b) →
      b.size = a.size + t.size)
    {ids : List NodeId} (h : a.buildAll ts = .ok (ids, b)) :
    b.size = a.size + Tree.sizeAll ts := by
  induction ts generalizing a ids with
  | nil =>
      cases h
      rfl
  | cons t ts ih =>
      rw [buildAll] at h
      split at h
      · cases h
      · rename_i child a₁ hbuild
        split at h
        · rename_i more a₂ hall
          cases h
          have hfirst := hts t List.mem_cons_self hbuild
          have hmore := ih (fun u hu => hts u (List.mem_cons_of_mem t hu)) hall
          rw [Tree.sizeAll, hmore, hfirst, Nat.add_assoc]
        · cases h

theorem size_buildInto
    {ts : List Tree} (hts : ∀ t ∈ ts, ∀ {a b : Arena} {id : NodeId}, a.build t = .ok (id, b) →
      b.size = a.size + t.size)
    (h : a.buildInto id ts = .ok b) : b.size = a.size + Tree.sizeAll ts := by
  induction ts generalizing a with
  | nil =>
      cases h
      rfl
  | cons t ts ih =>
      rw [buildInto] at h
      split at h
      · cases h
      · rename_i child a₁ hbuild
        split at h
        · rename_i a₂ hpush
          have hfirst := hts t List.mem_cons_self hbuild
          have hmore := ih (fun u hu => hts u (List.mem_cons_of_mem t hu)) h
          rw [Tree.sizeAll, hmore, size_pushBack hpush, hfirst, Nat.add_assoc]
        · cases h

/-- Building a tree adds as many nodes as it has. -/
theorem size_build
    {t : Tree} (h : a.build t = .ok (id, b)) : b.size = a.size + t.size := by
  induction t generalizing a b id with
  | node kind range ts ih =>
      rw [Tree.size]
      rw [build] at h
      split at h
      · dsimp only at h
        split at h
        · rename_i a₁ hinto
          cases h
          rw [size_buildInto ih hinto, size_add_snd, Nat.add_assoc]
        · cases h
      · split at h
        · cases h
        · rename_i roots a₁ hall
          dsimp only at h
          split at h
          · rename_i a₂ hpush
            cases h
            rw [size_pushBackAll hpush, size_add_snd, size_buildAll ih hall]
            omega
          · cases h

theorem size_copyInto
    {ids : List NodeId} {copied copied' : List (NodeId × NodeId)}
    (h : copyInto source id ids copied a = .ok (copied', b)) :
    b.size = a.size + ids.length ∧
      copied'.map Prod.fst = ids.reverse ++ copied.map Prod.fst := by
  induction ids generalizing a copied with
  | nil =>
      cases h
      exact ⟨rfl, rfl⟩
  | cons first ids ih =>
      rw [copyInto] at h
      split at h
      · cases h
      · dsimp only at h
        split at h
        · rename_i a₁ hpush
          obtain ⟨hsize, hcopied⟩ := ih h
          rw [size_pushBack hpush, size_add_snd] at hsize
          rw [hsize, hcopied, List.length_cons, List.reverse_cons, List.append_assoc]
          exact ⟨by omega, rfl⟩
        · cases h

/-- Copying pending nodes adds all nodes below them. -/
theorem size_copyPending
    {steps : Nat} {work : List (NodeId × NodeId)} {ps : List Plot}
    (hps : ∀ p ∈ ps, ∃ above, source.Bears above p) (hwork : work.map Prod.fst = ps.map root)
    (h : copyPending source steps work a = .ok b) :
    b.size + ps.length = a.size + (ps.flatMap ids).length := by
  induction steps generalizing a work ps with
  | zero =>
      cases work with
      | nil =>
          obtain rfl := List.map_eq_nil_iff.mp hwork.symm
          cases h
          rfl
      | cons w rest => cases h
  | succ steps ih =>
      cases work with
      | nil =>
          obtain rfl := List.map_eq_nil_iff.mp hwork.symm
          cases h
          rfl
      | cons w rest =>
          cases ps with
          | nil => cases hwork
          | cons p ps =>
              obtain ⟨id, copy⟩ := w
              obtain ⟨top, kind, range, qs⟩ := p
              simp only [List.map_cons, List.cons.injEq, root_node] at hwork
              obtain ⟨rfl, hrest⟩ := hwork
              obtain ⟨above, hp⟩ := hps _ List.mem_cons_self
              simp only [copyPending, hp.children_eq] at h
              split at h
              · rename_i copied a₁ hinto
                obtain ⟨hsize, hcopied⟩ := size_copyInto hinto
                have hpending : ∀ q ∈ qs.reverse ++ ps, ∃ above, source.Bears above q := by
                  intro q hq
                  rcases List.mem_append.mp hq with hq | hq
                  · exact ⟨_, (bears_node_iff.mp hp).2 q (List.mem_reverse.mp hq)⟩
                  · exact hps q (List.mem_cons_of_mem _ hq)
                have hroots : (copied ++ rest).map Prod.fst = (qs.reverse ++ ps).map root := by
                  rw [List.map_append, List.map_append, hcopied, hrest, List.map_reverse,
                    List.map_nil, List.append_nil]
                have hlater := ih hpending hroots h
                have hreverse := ((List.reverse_perm qs).flatMap_right ids).length_eq
                simp only [List.flatMap_append, List.length_append, hreverse, List.length_reverse,
                  List.flatMap_cons, ids, List.length_cons, List.length_map, hsize] at hlater ⊢
                omega
              · cases h

/-- Copying the tree of a plot adds as many nodes as it has. -/
theorem size_copyTree
    {q : Plot} (hq : source.Bears parent q) (h : a.copyTree source q.root = .ok (id, b)) :
    b.size = a.size + q.tree.size := by
  obtain ⟨ids, hroot⟩ := hq.node?_root
  simp only [copyTree, hroot] at h
  split at h
  · rename_i a₁ hpending
    cases h
    have hps : ∀ p ∈ [q], ∃ above, source.Bears above p := by simpa using ⟨parent, hq⟩
    have hsize := size_copyPending hps rfl hpending
    rw [size_add_snd, List.flatMap_singleton, length_ids, List.length_singleton] at hsize
    omega
  · cases h

/-- A plot with as many numbers as there are nodes has all of them. -/
theorem Bears.mem_ids_of_size_le
    (h : a.Bears parent p) (hnodup : p.ids.Nodup) (hsize : a.size ≤ p.ids.length)
    (hid : id < a.size) : id ∈ p.ids := by
  have hsubset : p.ids ⊆ List.range a.size := fun other hother =>
    List.mem_range.mpr (h.lt_size other hother)
  have hperm := (hnodup.subperm hsubset).perm_of_length_le (by simpa using hsize)
  exact hperm.mem_iff.mpr (List.mem_range.mpr hid)

/-! ## Dropped nodes -/

/-- The first node is a wrapper, and the second one is its only child. -/
def Wraps (a : Arena) (wrapper child : NodeId) : Prop :=
  ∃ n, a.node? wrapper = some n ∧ n.kind.isWrapper = true ∧ n.children = [child]

theorem Wraps.mem_children
    {wrapper : NodeId} (h : a.Wraps wrapper id) : id ∈ a.children wrapper := by
  obtain ⟨n, hnode, -, honly⟩ := h
  simp [children, hnode, honly]

theorem Wraps.lt_size
    {wrapper : NodeId} (h : a.Wraps wrapper id) : wrapper < a.size := by
  obtain ⟨n, hnode, -⟩ := h
  exact lt_size_of_node? hnode

/-- The numbers that are dropped from a plot are the only children of its wrappers. -/
theorem Bears.mem_dropped_iff
    (h : a.Bears parent p) : id ∈ p.dropped ↔ ∃ wrapper ∈ p.ids, a.Wraps wrapper id := by
  induction p generalizing parent with
  | node top kind range ps ih =>
      obtain ⟨hroot, hps⟩ := bears_node_iff.mp h
      have htop : a.Wraps top id ↔ id ∈ absorbed kind (ps.map root) := by
        rw [mem_absorbed_iff, Wraps, hroot]
        simp
      have hbelow : id ∈ ps.flatMap dropped ↔
          ∃ wrapper ∈ ps.flatMap ids, a.Wraps wrapper id := by
        rw [List.mem_flatMap]
        constructor
        · rintro ⟨p, hp, hid⟩
          obtain ⟨wrapper, hwrapper, hwraps⟩ := (ih p hp (hps p hp)).mp hid
          exact ⟨wrapper, ids_subset_flatMap hp wrapper hwrapper, hwraps⟩
        · rintro ⟨wrapper, hwrapper, hwraps⟩
          obtain ⟨p, hp, hmem⟩ := List.mem_flatMap.mp hwrapper
          exact ⟨p, hp, (ih p hp (hps p hp)).mpr ⟨wrapper, hmem, hwraps⟩⟩
      rw [dropped, List.mem_append, hbelow, ← htop, ids]
      simp

/-- A number is no longer in a collapsed plot exactly if it is the only child of a wrapper. -/
theorem Bears.not_mem_simplified_iff
    (h : a.Bears parent p) (hnodup : p.ids.Nodup) (hid : id ∈ p.ids) :
    id ∉ p.simplified.ids ↔ ∃ wrapper ∈ p.ids, a.Wraps wrapper id := by
  have hperm := p.ids_simplified_perm
  have hdisjoint := (List.nodup_append'.mp (hperm.nodup_iff.mpr hnodup)).2.2
  have hcases := List.mem_append.mp (hperm.mem_iff.mpr hid)
  rw [← h.mem_dropped_iff]
  exact ⟨hcases.resolve_left, fun hdropped hkept => hdisjoint hkept hdropped⟩

end Arena

end ExprFront
