import ExprFront.Proofs.Arena.Built

/-!
# Copying trees between arenas

Copying goes through a list of pending nodes. The copy of a pending node is
already there, with its parent and without children; taking the node from the
list adds copies of its children, which are pending from then on. When nothing
is pending any more, every copy is the root of a plot with the tree of the
original. The number of nodes still to be copied falls with every step, so the
size of the source is bound enough.
-/

namespace ExprFront.Arena

open Plot

variable {a b c source : Arena}

/-! ## Copies of children -/

/-- A pending node of the source, and its copy. -/
def pair (w : Plot × NodeId) : NodeId × NodeId := (w.1.root, w.2)

/-- The second arena has copies of the roots of plots as new last children of a node. -/
structure CopiesRoots (a b : Arena) (parent : NodeId) (n : Node) (qs : List Plot) : Prop where
  size_eq : b.size = a.size + qs.length
  node : b.node? parent = some { n with children := n.children ++ List.range' a.size qs.length }
  copy : ∀ w ∈ qs.zipIdx a.size, b.node? w.2 = some ⟨w.1.kind, w.1.range, [], some parent⟩
  same : ∀ id < a.size, id ≠ parent → b.node? id = a.node? id

theorem exists_copyInto
    {parent : NodeId} {n : Node} {qs : List Plot} (hqs : ∀ q ∈ qs, ∃ above, source.Bears above q)
    (hparent : a.node? parent = some n) (copied : List (NodeId × NodeId)) :
    ∃ b, copyInto source parent (qs.map root) copied a =
        .ok (((qs.zipIdx a.size).map pair).reverse ++ copied, b) ∧
      a.CopiesRoots b parent n qs := by
  induction qs generalizing a n copied with
  | nil => exact ⟨a, rfl, rfl, by simp [hparent], by simp, fun _ _ _ => rfl⟩
  | cons q qs ih =>
      obtain ⟨above, hq⟩ := hqs q List.mem_cons_self
      obtain ⟨ids, hroot⟩ := hq.node?_root
      have hlt := lt_size_of_node? hparent
      have hextends := a.extends_add q.kind q.range
      have hnew : (a.add q.kind q.range).2.node? a.size = some ⟨q.kind, q.range, [], none⟩ := by
        simp [node?_add_snd]
      obtain ⟨a₁, hpush, hsize₁, hnode₁, hcopy₁, hsame₁⟩ :=
        exists_pushBack ((hextends parent hlt).trans hparent) hnew rfl (Nat.ne_of_gt hlt)
      rw [size_add_snd] at hsize₁
      obtain ⟨b, hinto, hcopies⟩ := ih (fun p hp => hqs p (List.mem_cons_of_mem q hp)) hnode₁
        ((q.root, a.size) :: copied)
      have hfirst : a.size < a₁.size := hsize₁ ▸ Nat.lt_succ_self _
      refine ⟨b, ?_, ?_, ?_, ?_, ?_⟩
      · simp only [List.map_cons, copyInto, hroot, add_fst, hpush, hinto, hsize₁, pair,
          List.zipIdx_cons, List.reverse_cons, List.append_assoc, List.singleton_append]
      · rw [hcopies.size_eq, hsize₁, List.length_cons]
        omega
      · simpa [hsize₁, List.range'_succ] using hcopies.node
      · intro w hw
        rw [List.zipIdx_cons, List.mem_cons] at hw
        rcases hw with rfl | hw
        · rw [hcopies.same a.size hfirst (Nat.ne_of_gt hlt), hcopy₁]
        · rw [← hsize₁] at hw
          exact hcopies.copy w hw
      · intro id hid hne
        rw [hcopies.same id (Nat.lt_trans hid hfirst) hne, hsame₁ id hne (Nat.ne_of_lt hid),
          hextends id hid]

/-! ## Pending nodes -/

/-- The plots still to be copied are in the source, and their roots have been copied. -/
structure Pending (source a : Arena) (work : List (Plot × NodeId)) : Prop where
  bears : ∀ w ∈ work, ∃ above, source.Bears above w.1
  copy : ∀ w ∈ work, a.node? w.2 = some ⟨w.1.kind, w.1.range, [], a.parent w.2⟩
  nodup : (work.map Prod.snd).Nodup

/-- Each copy is the root of a plot with the tree of its original; the other nodes of these plots
are new, and all nodes but the copies stay as they were. -/
structure Completes (a b : Arena) (work : List (Plot × NodeId)) (ps : List Plot) : Prop where
  size_le : a.size ≤ b.size
  roots : ps.map root = work.map Prod.snd
  trees : ps.map tree = work.map fun w => w.1.tree
  bears : ∀ p ∈ ps, b.Bears (a.parent p.root) p
  nodup : (ps.flatMap ids).Nodup
  fresh : ∀ id ∈ ps.flatMap ids, id ∈ work.map Prod.snd ∨ a.size ≤ id
  same : ∀ id < a.size, id ∉ work.map Prod.snd → b.node? id = a.node? id

/-- Once a pending node is taken, its children are pending instead of it. -/
theorem Pending.step
    {id copy : NodeId} {kind : NodeKind} {range : TokenRange} {qs : List Plot}
    {rest : List (Plot × NodeId)} {n : Node}
    (h : source.Pending a ((.node id kind range qs, copy) :: rest))
    (hcopies : a.CopiesRoots b copy n qs) :
    source.Pending b ((qs.zipIdx a.size).reverse ++ rest) := by
  have hcopyLt : ∀ w ∈ rest, w.2 < a.size := fun w hw =>
    lt_size_of_node? (h.copy w (List.mem_cons_of_mem _ hw))
  obtain ⟨hcopy, hrest⟩ := List.nodup_cons.mp h.nodup
  have hsame : ∀ w ∈ rest, b.node? w.2 = a.node? w.2 := by
    intro w hw
    apply hcopies.same w.2 (hcopyLt w hw)
    rintro rfl
    exact hcopy (List.mem_map.mpr ⟨w, hw, rfl⟩)
  obtain ⟨above, hq⟩ := h.bears _ List.mem_cons_self
  refine ⟨?_, ?_, ?_⟩
  · intro w hw
    rcases List.mem_append.mp hw with hw | hw
    · exact ⟨some id, (bears_node_iff.mp hq).2 w.1
        (List.fst_mem_of_mem_zipIdx (List.mem_reverse.mp hw))⟩
    · exact h.bears w (List.mem_cons_of_mem _ hw)
  · intro w hw
    rcases List.mem_append.mp hw with hw | hw
    · have hnode := hcopies.copy w (List.mem_reverse.mp hw)
      simp [parent, hnode]
    · have hnode := h.copy w (List.mem_cons_of_mem _ hw)
      have hparent : b.parent w.2 = a.parent w.2 := by
        simp only [parent, hsame w hw]
      rw [hsame w hw, hnode, hparent]
  · rw [List.map_append, List.map_reverse, List.zipIdx_map_snd, List.nodup_append']
    refine ⟨List.nodup_reverse.mpr List.nodup_range', hrest, fun other hnew hold => ?_⟩
    obtain ⟨w, hw, rfl⟩ := List.mem_map.mp hold
    have hge := (List.mem_range'_1.mp (List.mem_reverse.mp hnew)).1
    exact Nat.not_lt.mpr hge (hcopyLt w hw)

/-- The copies that are pending after a step are new or were pending before. -/
theorem mem_copies_step
    {qs : List Plot} {rest : List (Plot × NodeId)} {start id : Nat}
    (h : id ∈ ((qs.zipIdx start).reverse ++ rest).map Prod.snd) :
    start ≤ id ∨ id ∈ rest.map Prod.snd := by
  rw [List.map_append, List.map_reverse, List.zipIdx_map_snd, List.mem_append,
    List.mem_reverse] at h
  exact h.imp_left fun hnew => (List.mem_range'_1.mp hnew).1

/-- The plots completed after a step are those of the children of the taken node, the last first,
and those of the other pending nodes. -/
theorem Completes.split
    {qs : List Plot} {rest : List (Plot × NodeId)} {start : Nat} {ps : List Plot}
    (h : b.Completes c ((qs.zipIdx start).reverse ++ rest) ps) :
    ∃ front back : List Plot, ps = front.reverse ++ back ∧
      front.map root = List.range' start qs.length ∧ front.map tree = qs.map tree ∧
      back.map root = rest.map Prod.snd ∧ back.map tree = rest.map fun w => w.1.tree := by
  have hroots := h.roots
  rw [List.map_append, List.map_reverse, List.zipIdx_map_snd] at hroots
  obtain ⟨front, back, rfl, hfront, hback⟩ := List.map_eq_append_iff.mp hroots
  have hlength : front.length = qs.length := by
    simpa using congrArg List.length hfront
  have hworkTrees : (qs.zipIdx start).map (fun w => w.1.tree) = qs.map tree := by
    have hfst := congrArg (List.map tree) (List.zipIdx_map_fst start qs)
    rwa [List.map_map] at hfst
  have htrees := h.trees
  rw [List.map_append, List.map_append, List.map_reverse, hworkTrees] at htrees
  obtain ⟨hfrontTrees, hbackTrees⟩ := List.append_inj htrees (by simp [hlength])
  refine ⟨front.reverse, back, by rw [List.reverse_reverse], ?_, ?_, hback, hbackTrees⟩
  · rw [List.map_reverse, hfront, List.reverse_reverse]
  · rw [List.map_reverse, hfrontTrees, List.reverse_reverse]

theorem CopiesRoots.parent_of_mem_range
    {parent id : NodeId} {n : Node} {qs : List Plot} (h : a.CopiesRoots b parent n qs)
    (hid : id ∈ List.range' a.size qs.length) : b.parent id = some parent := by
  rw [← List.zipIdx_map_snd] at hid
  obtain ⟨w, hw, rfl⟩ := List.mem_map.mp hid
  rw [Arena.parent, h.copy w hw]
  rfl

/-- The other pending copies keep their parents when a node is taken. -/
theorem Pending.parent_of_mem_tail
    {q : Plot} {copy id : NodeId} {n : Node} {qs : List Plot} {rest : List (Plot × NodeId)}
    (h : source.Pending a ((q, copy) :: rest)) (hcopies : a.CopiesRoots b copy n qs)
    (hid : id ∈ rest.map Prod.snd) : b.parent id = a.parent id := by
  obtain ⟨hcopy, -⟩ := List.nodup_cons.mp h.nodup
  have hne : id ≠ copy := fun heq => hcopy (heq ▸ hid)
  obtain ⟨w, hw, rfl⟩ := List.mem_map.mp hid
  have hlt := lt_size_of_node? (h.copy w (List.mem_cons_of_mem _ hw))
  rw [Arena.parent, Arena.parent, hcopies.same w.2 hlt hne]

/-- If the children of a taken node are completed, so is the node. -/
theorem Completes.step
    {id copy : NodeId} {kind : NodeKind} {range : TokenRange} {qs : List Plot}
    {rest : List (Plot × NodeId)} {ps : List Plot}
    (h : source.Pending a ((.node id kind range qs, copy) :: rest))
    (hcopies : a.CopiesRoots b copy ⟨kind, range, [], a.parent copy⟩ qs)
    (hcompletes : b.Completes c ((qs.zipIdx a.size).reverse ++ rest) ps) :
    ∃ ps, a.Completes c ((.node id kind range qs, copy) :: rest) ps := by
  have hcopyLt : copy < a.size := lt_size_of_node? (h.copy _ List.mem_cons_self)
  obtain ⟨hcopy, -⟩ := List.nodup_cons.mp h.nodup
  have hsize : a.size ≤ b.size := by
    rw [hcopies.size_eq]
    exact Nat.le_add_right _ _
  have hold : ∀ other < a.size, other ∉ rest.map Prod.snd →
      other ∉ ((qs.zipIdx a.size).reverse ++ rest).map Prod.snd := by
    intro other hlt hrest hmem
    rcases mem_copies_step hmem with hnew | hmem
    · exact Nat.not_lt.mpr hnew hlt
    · exact hrest hmem
  obtain ⟨front, back, rfl, hfront, hfrontTrees, hback, hbackTrees⟩ := hcompletes.split
  have hperm : ((Plot.node copy kind range front :: back).flatMap ids).Perm
      (copy :: (front.reverse ++ back).flatMap ids) := by
    rw [List.flatMap_cons, ids, List.flatMap_append, List.cons_append]
    exact (((List.reverse_perm front).flatMap_right ids).symm.append_right _).cons copy
  have hcopyNew : copy ∉ (front.reverse ++ back).flatMap ids := by
    intro hmem
    rcases hcompletes.fresh copy hmem with hwork | hge
    · exact hold copy hcopyLt hcopy hwork
    · exact Nat.not_lt.mpr (Nat.le_trans hsize hge) hcopyLt
  refine ⟨.node copy kind range front :: back, Nat.le_trans hsize hcompletes.size_le, ?_, ?_, ?_,
    ?_, ?_, ?_⟩
  · simp [hback]
  · simp [Plot.tree, hbackTrees, hfrontTrees]
  · intro p hp
    rcases List.mem_cons.mp hp with rfl | hp
    · apply bears_node_iff.mpr
      constructor
      · rw [hcompletes.same copy (Nat.lt_of_lt_of_le hcopyLt hsize) (hold copy hcopyLt hcopy),
          hcopies.node, hfront]
        rfl
      · intro q hq
        have hbears := hcompletes.bears q (by simp [hq])
        rwa [hcopies.parent_of_mem_range (hfront ▸ List.mem_map_of_mem hq)] at hbears
    · have hbears := hcompletes.bears p (by simp [hp])
      have hmem : p.root ∈ rest.map Prod.snd := hback ▸ List.mem_map_of_mem hp
      rwa [h.parent_of_mem_tail hcopies hmem] at hbears
  · rw [hperm.nodup_iff]
    exact List.nodup_cons.mpr ⟨hcopyNew, hcompletes.nodup⟩
  · intro other hother
    rw [List.map_cons, List.mem_cons]
    rcases List.mem_cons.mp (hperm.mem_iff.mp hother) with rfl | hother
    · exact .inl (.inl rfl)
    · rcases hcompletes.fresh other hother with hwork | hge
      · exact (mem_copies_step hwork).symm.imp_left .inr
      · exact .inr (Nat.le_trans hsize hge)
  · intro other hlt hnot
    rw [List.map_cons, List.mem_cons, not_or] at hnot
    rw [hcompletes.same other (Nat.lt_of_lt_of_le hlt hsize) (hold other hlt hnot.2),
      hcopies.same other hlt hnot.1]

/-- The number of nodes of the plots still to be copied. -/
def remaining (work : List (Plot × NodeId)) : Nat := (work.flatMap fun w => w.1.ids).length

theorem remaining_pos
    (w : Plot × NodeId) (rest : List (Plot × NodeId)) : 0 < remaining (w :: rest) := by
  rw [remaining, List.flatMap_cons, List.length_append]
  exact Nat.add_pos_left (List.length_pos_of_mem w.1.root_mem_ids) _

theorem remaining_step
    (id copy : NodeId) (kind : NodeKind) (range : TokenRange) (qs : List Plot)
    (rest : List (Plot × NodeId)) (start : Nat) :
    remaining ((.node id kind range qs, copy) :: rest) =
      remaining ((qs.zipIdx start).reverse ++ rest) + 1 := by
  have hwork : ((qs.zipIdx start).reverse.flatMap fun w => w.1.ids).length =
      (qs.flatMap ids).length := by
    rw [((List.reverse_perm _).flatMap_right _).length_eq, ← List.flatMap_map Prod.fst ids,
      List.zipIdx_map_fst]
  simp only [remaining, List.flatMap_cons, List.flatMap_append, List.length_append, hwork, ids,
    List.length_cons]
  omega

theorem Completes.nil (a : Arena) : a.Completes a [] [] :=
  ⟨Nat.le_refl _, rfl, rfl, by simp, by simp, by simp, fun _ _ _ => rfl⟩

/-- Copying completes all pending nodes. -/
theorem exists_copyPending
    {work : List (Plot × NodeId)} {steps : Nat} (h : source.Pending a work)
    (hsteps : remaining work ≤ steps) :
    ∃ b ps, copyPending source steps (work.map pair) a = .ok b ∧ a.Completes b work ps := by
  induction steps generalizing a work with
  | zero =>
      cases work with
      | nil => exact ⟨a, [], rfl, .nil a⟩
      | cons w rest =>
          have := remaining_pos w rest
          omega
  | succ steps ih =>
      cases work with
      | nil => exact ⟨a, [], rfl, .nil a⟩
      | cons w rest =>
          obtain ⟨⟨id, kind, range, qs⟩, copy⟩ := w
          obtain ⟨above, hq⟩ := h.bears _ List.mem_cons_self
          have hqs := (bears_node_iff.mp hq).2
          obtain ⟨a₁, hinto, hcopies⟩ := exists_copyInto (fun q hq => ⟨_, hqs q hq⟩)
            (h.copy _ List.mem_cons_self) []
          rw [remaining_step id copy kind range qs rest a.size] at hsteps
          obtain ⟨b, ps, hpending, hcompletes⟩ :=
            ih (h.step hcopies) (Nat.le_of_succ_le_succ hsteps)
          obtain ⟨ps, hps⟩ := hcompletes.step h hcopies
          refine ⟨b, ps, ?_, hps⟩
          simp only [List.map_cons, pair, root_node, copyPending, hq.children_eq, hinto,
            List.append_nil]
          rwa [List.map_append, List.map_reverse] at hpending

/-- The tree of a plot of another arena can be copied; the copy is a gained plot. -/
theorem exists_copyTree
    {parent : Option NodeId} {q : Plot} (a : Arena) (hq : source.Bears parent q)
    (hnodup : q.ids.Nodup) :
    ∃ p b, a.copyTree source q.root = .ok (p.root, b) ∧ p.tree = q.tree ∧ a.Gains b [p] := by
  obtain ⟨ids, hroot⟩ := hq.node?_root
  have hextends := a.extends_add q.kind q.range
  have hnode : (a.add q.kind q.range).2.node? a.size = some ⟨q.kind, q.range, [], none⟩ := by
    simp [node?_add_snd]
  have hnone : (a.add q.kind q.range).2.parent a.size = none := by
    simp [Arena.parent, hnode]
  have hpending : source.Pending (a.add q.kind q.range).2 [(q, a.size)] := by
    refine ⟨by simpa using ⟨parent, hq⟩, ?_, by simp⟩
    simp [hnode, hnone]
  have hsteps : remaining [(q, a.size)] ≤ source.size := by
    simpa [remaining] using hq.length_ids_le hnodup
  obtain ⟨b, ps, hcopy, hcompletes⟩ := exists_copyPending hpending hsteps
  obtain ⟨p, rfl⟩ : ∃ p, ps = [p] := by
    have hlength := congrArg List.length hcompletes.roots
    exact List.length_eq_one_iff.mp (by simpa using hlength)
  have hproot : p.root = a.size := by simpa using hcompletes.roots
  have hbears := hcompletes.bears p List.mem_cons_self
  rw [hproot, hnone] at hbears
  refine ⟨p, b, ?_, by simpa using hcompletes.trees, ?_, by simpa using hbears, ?_,
    hcompletes.nodup⟩
  · simp only [List.map_cons, List.map_nil, pair] at hcopy
    simp only [copyTree, hroot, add_fst, hcopy, hproot]
  · intro id hid
    have hlt := Nat.lt_of_lt_of_le hid hextends.size_le
    rw [hcompletes.same id hlt (by simpa using Nat.ne_of_lt hid), hextends id hid]
  · intro id hid
    rcases hcompletes.fresh id hid with hwork | hge
    · have hid : id = a.size := by simpa using hwork
      exact Nat.le_of_eq hid.symm
    · exact Nat.le_trans hextends.size_le hge

/-! ## Mapped ranges -/

end ExprFront.Arena

namespace ExprFront

/-- The plot in which every node has the range that its own is mapped to. -/
def Plot.mapRanges (f : TokenRange → TokenRange) : Plot → Plot
  | .node id kind range ps => .node id kind (f range) (ps.map (mapRanges f))

namespace Plot

@[simp] theorem root_mapRanges
    (f : TokenRange → TokenRange) (p : Plot) : (p.mapRanges f).root = p.root := by
  obtain ⟨id, kind, range, ps⟩ := p
  rw [mapRanges]
  rfl

@[simp] theorem ids_mapRanges
    (f : TokenRange → TokenRange) (p : Plot) : (p.mapRanges f).ids = p.ids := by
  induction p with
  | node id kind range ps ih =>
      rw [mapRanges, ids, ids, List.flatMap_map]
      congr 1
      exact List.flatMap_congr ih

theorem tree_mapRanges
    (f : TokenRange → TokenRange) (p : Plot) : (p.mapRanges f).tree = p.tree.mapRanges f := by
  induction p with
  | node id kind range ps ih =>
      rw [mapRanges, tree, tree, Tree.mapRanges_node, List.map_map, List.map_map]
      congr 1
      exact List.map_congr_left ih

end Plot

namespace Arena

theorem node?_mapRanges
    (a : Arena) (f : TokenRange → TokenRange) (id : NodeId) :
    (a.mapRanges f).node? id = (a.node? id).map fun n => { n with range := f n.range } := by
  simp [mapRanges, node?]

/-- Mapping the ranges of an arena maps those of every plot. -/
theorem Bears.mapRanges
    {a : Arena} {parent : Option NodeId} {p : Plot} (h : a.Bears parent p)
    (f : TokenRange → TokenRange) : (a.mapRanges f).Bears parent (p.mapRanges f) := by
  induction p generalizing parent with
  | node id kind range ps ih =>
      obtain ⟨hroot, hps⟩ := bears_node_iff.mp h
      rw [Plot.mapRanges]
      refine bears_node_iff.mpr ⟨?_, fun q hq => ?_⟩
      · simp [node?_mapRanges, hroot, Function.comp_def]
      · obtain ⟨p, hp, rfl⟩ := List.mem_map.mp hq
        exact ih p hp (hps p hp)

end Arena

end ExprFront
