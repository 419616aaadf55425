import ExprFront.Proofs.Arena.Ancestors
import ExprFront.Proofs.Arena.Copied

/-!
# Edited links

As far as links go, each operation on an arena attaches or cuts off single nodes,
rearranges a plot, or leaves all links as they were. Attaching a node and cutting
it off keep links mutual, also where a node is put below itself. The only way to
make a cycle is to attach a node to one that is reached from it, which copying
never does.
-/

namespace ExprFront

namespace Arena

variable {a b c source : Arena} {parent child id other : NodeId}

/-! ## Single links -/

theorem parent_modify
    {f : Node → Node} (hf : ∀ n, (f n).parent = n.parent) (other : NodeId) :
    (a.modify id f).parent other = a.parent other := by
  by_cases hid : id = other
  · cases hnode : a.node? other <;> simp [Arena.parent, node?_modify, hid, hnode, hf]
  · simp [Arena.parent, node?_modify, hid]

theorem children_modify
    {f : Node → Node} (hf : ∀ n, (f n).children = n.children) (other : NodeId) :
    (a.modify id f).children other = a.children other := by
  by_cases hid : id = other
  · cases hnode : a.node? other <;> simp [children, node?_modify, hid, hnode, hf]
  · simp [children, node?_modify, hid]

theorem parent_modify_self
    {f : Node → Node} {n : Node} (hnode : a.node? id = some n) :
    (a.modify id f).parent id = (f n).parent := by
  rw [Arena.parent, node?_modify, if_pos rfl, hnode]
  rfl

theorem children_modify_self
    {f : Node → Node} {n : Node} (hnode : a.node? id = some n) :
    (a.modify id f).children id = (f n).children := by
  rw [children, node?_modify, if_pos rfl, hnode]
  rfl

theorem parent_modify_of_ne
    {f : Node → Node} (hne : other ≠ id) : (a.modify id f).parent other = a.parent other := by
  rw [Arena.parent, Arena.parent, node?_modify, if_neg hne.symm]

theorem children_modify_of_ne
    {f : Node → Node} (hne : other ≠ id) : (a.modify id f).children other = a.children other := by
  rw [children, children, node?_modify, if_neg hne.symm]

/-- The second arena is the first one with one more node attached, as far as links go. -/
structure Attaches (a b : Arena) (parent child : NodeId) : Prop where
  free : a.parent child = none
  parent_eq : b.parent child = some parent
  perm : (b.children parent).Perm (child :: a.children parent)
  same_parent : ∀ id, id ≠ child → b.parent id = a.parent id
  same_children : ∀ id, id ≠ parent → b.children id = a.children id

namespace Attaches

theorem mem_children_iff
    (h : a.Attaches b parent child) :
    other ∈ b.children id ↔ (id = parent ∧ other = child) ∨ other ∈ a.children id := by
  by_cases hid : id = parent
  · subst hid
    rw [h.perm.mem_iff, List.mem_cons]
    simp
  · rw [h.same_children id hid]
    simp [hid]

theorem parent_eq_some_iff
    (h : a.Attaches b parent child) :
    b.parent other = some id ↔ (id = parent ∧ other = child) ∨ a.parent other = some id := by
  by_cases hother : other = child
  · subst hother
    rw [h.parent_eq, h.free]
    simp [eq_comm]
  · rw [h.same_parent other hother]
    simp [hother]

/-- Attaching a node keeps links mutual. -/
theorem keepsMutual
    (h : a.Attaches b parent child) (ha : a.Mutual) : b.Mutual := by
  refine ⟨fun {id other} => ?_, fun id => ?_⟩
  · rw [h.mem_children_iff, h.parent_eq_some_iff, ha.mem_children_iff]
  · by_cases hid : id = parent
    · subst hid
      rw [h.perm.nodup_iff, List.nodup_cons, ha.mem_children_iff, h.free]
      exact ⟨nofun, ha.nodup id⟩
    · rw [h.same_children id hid]
      exact ha.nodup id

/-- So does cutting a node off. -/
theorem keepsMutual_before
    (h : a.Attaches b parent child) (hb : b.Mutual) : a.Mutual := by
  have hnodup : (child :: a.children parent).Nodup := h.perm.nodup_iff.mp (hb.nodup parent)
  rw [List.nodup_cons] at hnodup
  refine ⟨fun {id other} => ?_, fun id => ?_⟩
  · have hlink : other ∈ b.children id ↔ b.parent other = some id := hb.mem_children_iff
    rw [h.mem_children_iff, h.parent_eq_some_iff] at hlink
    by_cases hnew : id = parent ∧ other = child
    · obtain ⟨rfl, rfl⟩ := hnew
      simp [hnodup.1, h.free]
    · simpa [hnew] using hlink
  · by_cases hid : id = parent
    · subst hid
      exact hnodup.2
    · rw [← h.same_children id hid]
      exact hb.nodup id

/-- A way down uses the new link or it does not. -/
theorem transGen_cases
    (h : a.Attaches b parent child)
    (hway : Relation.TransGen (fun id child => child ∈ b.children id) id other) :
    Relation.TransGen (fun id child => child ∈ a.children id) id other ∨
      (a.Reaches id parent ∧ a.Reaches child other) := by
  induction hway with
  | single hlink =>
      rcases h.mem_children_iff.mp hlink with ⟨rfl, rfl⟩ | hold
      · exact .inr ⟨.refl, .refl⟩
      · exact .inl (.single hold)
  | tail _ hlink ih =>
      rcases h.mem_children_iff.mp hlink with ⟨rfl, rfl⟩ | hold
      · exact .inr ⟨ih.elim (·.to_reflTransGen) (·.1), .refl⟩
      · exact ih.imp (·.tail hold) fun hways => ⟨hways.1, hways.2.tail hold⟩

/-- Attaching a node makes no cycle unless the new parent is the node or lies below it. -/
theorem keepsAcyclic
    (h : a.Attaches b parent child) (ha : a.Acyclic) (hnot : ¬ a.Reaches child parent) :
    b.Acyclic := by
  intro id hcycle
  rcases h.transGen_cases hcycle with hold | ⟨hup, hdown⟩
  · exact ha id hold
  · exact hnot (hdown.trans hup)

/-- Cutting a node off makes no cycle. -/
theorem keepsAcyclic_before
    (h : a.Attaches b parent child) (hb : b.Acyclic) : a.Acyclic := fun id hcycle =>
  hb id (Relation.TransGen.mono (fun _ _ hlink => h.mem_children_iff.mpr (.inr hlink)) _ _ hcycle)

end Attaches

/-! ## Attaching and cutting off -/

/-- A node with a parent is not attached again. -/
theorem setParent_of_parent_eq
    {above : NodeId} (hparent : parent < a.size) (h : a.parent child = some above) :
    a.setParent parent child = .error (.alreadyAttached child) := by
  obtain ⟨n, hnode, habove⟩ := Option.bind_eq_some_iff.mp h
  obtain ⟨m, hm⟩ := exists_node_of_lt_size hparent
  simp only [setParent, hnode, hm, habove]

/-- A node without a parent gets one. -/
theorem setParent_of_free
    (hparent : parent < a.size) (hchild : child < a.size) (h : a.parent child = none) :
    a.setParent parent child =
      .ok (a.modify child fun n => { n with parent := some parent }) := by
  obtain ⟨n, hnode⟩ := exists_node_of_lt_size hchild
  rw [Arena.parent, hnode] at h
  exact (a.setParent_eq_ok_iff _ parent child).mpr
    ⟨⟨n, hnode, h⟩, (a.node?_isSome_iff parent).mpr hparent, rfl⟩

/-- A node that gets its parent is attached, wherever it is put among the children. -/
theorem attaches_of_map_setParent
    {insert : List NodeId → List NodeId}
    (hinsert : ∀ ids, (insert ids).Perm (child :: ids))
    (h : (a.setParent parent child).map
      (·.modify parent fun n => { n with children := insert n.children }) = .ok b) :
    a.Attaches b parent child := by
  cases hset : a.setParent parent child with
  | error f =>
      rw [hset] at h
      cases h
  | ok c =>
      rw [hset] at h
      cases h
      obtain ⟨⟨n, hnode, hfree⟩, hexists, rfl⟩ := (a.setParent_eq_ok_iff c parent child).mp hset
      have hkept : ∀ id, (a.modify child fun n => { n with parent := some parent }).children id =
          a.children id := children_modify (fun _ => rfl)
      refine ⟨?_, ?_, ?_, fun id hid => ?_, fun id hid => ?_⟩
      · rw [Arena.parent, hnode]
        exact hfree
      · rw [parent_modify (fun _ => by rfl), parent_modify_self hnode]
      · have hlt : parent < (a.modify child fun n => { n with parent := some parent }).size := by
          rwa [size_modify, ← node?_isSome_iff]
        obtain ⟨m, hm⟩ := exists_node_of_lt_size hlt
        have hchildren := hkept parent
        rw [children, hm] at hchildren
        rw [children_modify_self hm, ← hchildren]
        exact hinsert m.children
      · rw [parent_modify (fun _ => by rfl), parent_modify_of_ne hid]
      · rw [children_modify_of_ne hid, hkept]

theorem attaches_pushBack
    (h : a.pushBack parent child = .ok b) : a.Attaches b parent child :=
  attaches_of_map_setParent (fun _ => List.perm_append_singleton _ _) h

theorem attaches_pushFront
    (h : a.pushFront parent child = .ok b) : a.Attaches b parent child :=
  attaches_of_map_setParent (fun _ => .refl _) h

/-- What is cut off was attached before. -/
theorem Mutual.attaches_of_cut
    (h : a.Mutual) {remove : List NodeId → List NodeId}
    (hperm : (a.children id).Perm (child :: remove (a.children id))) :
    ((a.modify id fun n => { n with children := remove n.children }).clearParent child).Attaches a
      id child := by
  have hchild : child ∈ a.children id := hperm.mem_iff.mpr List.mem_cons_self
  have hparent := h.mem_children_iff.mp hchild
  have hkept : ∀ other, (a.modify id fun n => { n with children := remove n.children }).parent
      other = a.parent other := parent_modify (fun _ => rfl)
  rw [clearParent]
  refine ⟨?_, hparent, ?_, fun other hother => ?_, fun other hother => ?_⟩
  · have hlt : child < (a.modify id fun n => { n with children := remove n.children }).size := by
      rw [size_modify]
      exact lt_size_of_parent_eq hparent
    obtain ⟨m, hm⟩ := exists_node_of_lt_size hlt
    rw [parent_modify_self hm]
  · rw [children_modify (fun _ => by rfl)]
    obtain ⟨n, hnode, hchildren⟩ := exists_node_of_mem_children hchild
    rw [children_modify_self hnode, hchildren]
    exact hperm
  · rw [parent_modify_of_ne hother, hkept]
  · rw [children_modify (fun _ => by rfl), children_modify_of_ne hother]

/-- The last child is cut off, if there is one. -/
theorem Mutual.popBack_cases
    (h : a.Mutual) (id : NodeId) :
    (a.popBack id).2 = a ∨ ∃ child, (a.popBack id).2.Attaches a id child := by
  unfold popBack
  split
  · exact .inl rfl
  · rename_i last hlast
    refine .inr ⟨last, h.attaches_of_cut ?_⟩
    obtain ⟨front, hfront⟩ := List.getLast?_eq_some_iff.mp hlast
    rw [hfront, List.dropLast_concat]
    exact List.perm_append_singleton _ _

/-- The first child is cut off, if there is one. -/
theorem Mutual.popFront_cases
    (h : a.Mutual) (id : NodeId) :
    (a.popFront id).2 = a ∨ ∃ child, (a.popFront id).2.Attaches a id child := by
  unfold popFront
  split
  · exact .inl rfl
  · rename_i first more hchildren
    refine .inr ⟨first, h.attaches_of_cut ?_⟩
    rw [hchildren, List.tail_cons]

/-! ## Operations that leave the links alone -/

/-- Both arenas have the same links. -/
structure SameLinks (a b : Arena) : Prop where
  children_eq : ∀ id, b.children id = a.children id
  parent_eq : ∀ id, b.parent id = a.parent id

theorem SameLinks.keepsMutual
    (h : a.SameLinks b) (ha : a.Mutual) : b.Mutual := by
  refine ⟨fun {id child} => ?_, fun id => ?_⟩
  · rw [h.children_eq, h.parent_eq, ha.mem_children_iff]
  · rw [h.children_eq]
    exact ha.nodup id

theorem SameLinks.keepsAcyclic
    (h : a.SameLinks b) (ha : a.Acyclic) : b.Acyclic := by
  intro id
  simp only [h.children_eq]
  exact ha id

/-- A new node has the links that a missing one has: none. -/
theorem sameLinks_add
    (a : Arena) (kind : NodeKind) (range : TokenRange) : a.SameLinks (a.add kind range).2 := by
  have hnone : a.node? a.size = none := by
    rw [← Option.not_isSome_iff_eq_none, node?_isSome_iff]
    exact Nat.lt_irrefl _
  refine ⟨fun id => ?_, fun id => ?_⟩
  · by_cases hid : id = a.size
    · simp [children, node?_add_snd, hid, hnone]
    · simp [children, node?_add_snd, hid]
  · by_cases hid : id = a.size
    · simp [Arena.parent, node?_add_snd, hid, hnone]
    · simp [Arena.parent, node?_add_snd, hid]

theorem sameLinks_recast
    (a : Arena) (id : NodeId) (kind : NodeKind) (range : TokenRange) :
    a.SameLinks (a.recast id kind range) :=
  ⟨children_modify (fun _ => rfl), parent_modify (fun _ => rfl)⟩

theorem sameLinks_mapRanges
    (a : Arena) (f : TokenRange → TokenRange) : a.SameLinks (a.mapRanges f) := by
  have hnode : ∀ id, (a.mapRanges f).node? id =
      (a.node? id).map fun n => { n with range := f n.range } := by
    intro id
    simp [mapRanges, node?]
  refine ⟨fun id => ?_, fun id => ?_⟩
  · rw [children, children, hnode]
    cases a.node? id <;> rfl
  · rw [Arena.parent, Arena.parent, hnode]
    cases a.node? id <;> rfl

/-! ## Copying -/

/-- The second arena is the first one with nodes attached that were not above their new parents. -/
def Grows : Arena → Arena → Prop :=
  Relation.ReflTransGen fun a b =>
    ∃ parent child, a.Attaches b parent child ∧ ¬ a.Reaches child parent

theorem Grows.keepsMutual
    (h : a.Grows b) (ha : a.Mutual) : b.Mutual := by
  induction h with
  | refl => exact ha
  | tail _ hstep ih =>
      obtain ⟨parent, child, hattaches, -⟩ := hstep
      exact hattaches.keepsMutual ih

theorem Grows.keepsAcyclic
    (h : a.Grows b) (ha : a.Acyclic) : b.Acyclic := by
  induction h with
  | refl => exact ha
  | tail _ hstep ih =>
      obtain ⟨parent, child, hattaches, hnot⟩ := hstep
      exact hattaches.keepsAcyclic ih hnot

theorem children_of_size_le
    (h : a.size ≤ id) : a.children id = [] :=
  List.eq_nil_iff_forall_not_mem.mpr fun _ hchild =>
    Nat.not_lt.mpr h (lt_size_of_mem_children hchild)

/-- From a node without children only the node itself is reached. -/
theorem not_reaches_of_children_eq_nil
    (h : a.children id = []) (hne : other ≠ id) : ¬ a.Reaches id other := by
  intro hreaches
  obtain heq | ⟨child, hchild, -⟩ := Relation.ReflTransGen.cases_head hreaches
  · exact hne heq.symm
  · rw [h] at hchild
    cases hchild

/-- A new node is attached to one that was there before. -/
theorem grows_of_add_and_pushBack
    {kind : NodeKind} {range : TokenRange} (hparent : parent < a.size)
    (h : (a.add kind range).2.pushBack parent a.size = .ok b) : a.Grows b := by
  have hadd := a.sameLinks_add kind range
  obtain ⟨hfree, hlink, hperm, hsameParent, hsameChildren⟩ := attaches_pushBack h
  refine .single ⟨parent, a.size, ⟨?_, hlink, ?_, fun id hid => ?_, fun id hid => ?_⟩, ?_⟩
  · rwa [hadd.parent_eq] at hfree
  · rwa [hadd.children_eq] at hperm
  · rw [hsameParent id hid, hadd.parent_eq]
  · rw [hsameChildren id hid, hadd.children_eq]
  · have hnone : a.children a.size = [] := children_of_size_le (Nat.le_refl _)
    exact not_reaches_of_children_eq_nil hnone (Nat.ne_of_lt hparent)

/-- The copies of children are attached to a node that was there before, and are there. -/
theorem grows_copyInto
    {ids : List NodeId} {copied copied' : List (NodeId × NodeId)} (hparent : parent < a.size)
    (hcopied : ∀ w ∈ copied, w.2 < a.size)
    (h : copyInto source parent ids copied a = .ok (copied', b)) :
    a.Grows b ∧ a.size ≤ b.size ∧ ∀ w ∈ copied', w.2 < b.size := by
  induction ids generalizing a copied with
  | nil =>
      cases h
      exact ⟨.refl, Nat.le_refl _, hcopied⟩
  | cons id ids ih =>
      rw [copyInto] at h
      split at h
      · cases h
      · rename_i n hnode
        dsimp only at h
        split at h
        · rename_i a₁ hpush
          have hsize : a₁.size = a.size + 1 := by rw [size_pushBack hpush, size_add_snd]
          have hle : a.size ≤ a₁.size := hsize ▸ Nat.le_succ _
          have hcopied₁ : ∀ w ∈ (id, a.size) :: copied, w.2 < a₁.size := by
            intro w hw
            rcases List.mem_cons.mp hw with rfl | hw
            · exact hsize ▸ Nat.lt_succ_self _
            · exact Nat.lt_of_lt_of_le (hcopied w hw) hle
          obtain ⟨hgrows, hmore, hall⟩ := ih (Nat.lt_of_lt_of_le hparent hle) hcopied₁ h
          exact ⟨(grows_of_add_and_pushBack hparent hpush).trans hgrows, Nat.le_trans hle hmore,
            hall⟩
        · cases h

theorem grows_copyPending
    {steps : Nat} {work : List (NodeId × NodeId)} (hwork : ∀ w ∈ work, w.2 < a.size)
    (h : copyPending source steps work a = .ok b) : a.Grows b := by
  induction steps generalizing a work with
  | zero =>
      cases work with
      | nil =>
          cases h
          exact .refl
      | cons w work => cases h
  | succ steps ih =>
      cases work with
      | nil =>
          cases h
          exact .refl
      | cons w work =>
          obtain ⟨id, copy⟩ := w
          rw [copyPending] at h
          split at h
          · rename_i copied a₁ hinto
            obtain ⟨hgrows, hle, hcopied⟩ :=
              grows_copyInto (hwork _ List.mem_cons_self) (by simp) hinto
            refine hgrows.trans (ih (fun w hw => ?_) h)
            rcases List.mem_append.mp hw with hw | hw
            · exact hcopied w hw
            · exact Nat.lt_of_lt_of_le (hwork w (List.mem_cons_of_mem _ hw)) hle
          · cases h

/-- Copying a tree adds its root and attaches the other nodes. -/
theorem exists_grows_of_copyTree
    {root : NodeId} (h : a.copyTree source id = .ok (root, b)) :
    ∃ c, a.SameLinks c ∧ c.Grows b := by
  unfold copyTree at h
  split at h
  · cases h
  · rename_i n hnode
    dsimp only at h
    split at h
    · rename_i a₁ hpending
      cases h
      exact ⟨_, a.sameLinks_add n.kind n.range, grows_copyPending (by simp) hpending⟩
    · cases h

/-! ## Collapsing -/

/-- Collapsing a linked subtree is a rearrangement of its plot. -/
theorem Mutual.exists_simplify
    (h : a.Mutual) (hbelow : a.LinkedBelow id) :
    ∃ b p q, a.simplify id = .ok b ∧ a.Rearranged b (a.parent id) p q := by
  obtain ⟨p, rfl, hp, hnodup⟩ := hbelow.exists_bears
  obtain ⟨b, hsimplify, hq, hsame, halone⟩ := hp.exists_simplify hnodup
  refine ⟨b, p, p.simplified, hsimplify, hp, hq, hnodup.sublist p.ids_simplified_sublist,
    p.root_simplified, p.ids_simplified_sublist.subset, fun above habove hmem => ?_, hsame, halone⟩
  -- A parent inside the plot would make a cycle there.
  have hchild : p.root ∈ a.children above := h.mem_children_iff.mpr habove
  have hreaches := hp.mem_ids_iff.mp hmem
  exact hp.acyclic hnodup hmem (Relation.TransGen.head' hchild hreaches)

end Arena

end ExprFront
