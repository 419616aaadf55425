import ExprFront.Proofs.Arena.Simplified
import Mathlib.Data.Fintype.EquivFin

/-!
# Arenas with consistent links

In a linked arena children and parents name each other, no child is listed
twice, and no node lies below itself. Every node of such an arena is the root of
a plot, which has exactly the nodes that are reached from it; for one node it is
enough that the links are consistent from it on downwards. The other way
round, a plot that is borne settles the links of all its nodes but that of its
root to the parent. So an arena stays linked when a plot is rearranged in
place, if the nodes that drop out of the plot are left alone. Mutual links and
the absence of cycles are kept apart from each other, since links can be mutual
where some nodes lie below themselves.
-/

namespace ExprFront

theorem Plot.map_root_sublist
    (ps : List Plot) : (ps.map root).Sublist (ps.flatMap ids) := by
  induction ps with
  | nil => exact .refl _
  | cons p ps ih =>
      rw [List.map_cons, List.flatMap_cons, ← List.singleton_append]
      exact (List.singleton_sublist.mpr p.root_mem_ids).append ih

namespace Arena

open Plot

variable {a b : Arena} {parent : Option NodeId} {p q : Plot} {id child : NodeId}

/-- Children and parents name each other, each child is listed once, and no node lies below
itself. -/
structure Linked (a : Arena) : Prop where
  parent_eq : ∀ {id child}, child ∈ a.children id → a.parent child = some id
  mem_children : ∀ {id above}, a.parent id = some above → id ∈ a.children above
  nodup : ∀ id, (a.children id).Nodup
  acyclic : ∀ id, ¬ Relation.TransGen (fun id child => child ∈ a.children id) id id

theorem exists_node_of_lt_size
    (h : id < a.size) : ∃ n, a.node? id = some n :=
  Option.isSome_iff_exists.mp ((a.node?_isSome_iff id).mpr h)

/-- A node with children is in the arena. -/
theorem exists_node_of_mem_children
    (h : child ∈ a.children id) : ∃ n, a.node? id = some n ∧ n.children = a.children id := by
  rw [children] at h ⊢
  cases hnode : a.node? id with
  | none =>
      rw [hnode] at h
      cases h
  | some n => exact ⟨n, rfl, rfl⟩

theorem lt_size_of_mem_children
    (h : child ∈ a.children id) : id < a.size := by
  obtain ⟨n, hnode, -⟩ := exists_node_of_mem_children h
  exact lt_size_of_node? hnode

theorem lt_size_of_parent_eq
    {above : NodeId} (h : a.parent id = some above) : id < a.size := by
  obtain ⟨n, hnode, -⟩ := Option.bind_eq_some_iff.mp h
  exact lt_size_of_node? hnode

/-! ## Links within a plot -/

theorem Alone.links
    (h : a.Alone id) : a.children id = [] ∧ a.parent id = none := by
  obtain ⟨n, hnode, hchildren, hparent⟩ := h
  simp [children, Arena.parent, hnode, hchildren, hparent]

/-- Every node of a plot is the root of a plot, and all but the root have a parent in it. -/
theorem Bears.exists_below
    (h : a.Bears parent p) (hid : id ∈ p.ids) :
    ∃ (above : Option NodeId) (q : Plot), q.root = id ∧ a.Bears above q ∧ q.ids.Sublist p.ids ∧
      (id = p.root ∨ ∃ x ∈ p.ids, above = some x ∧ id ∈ a.children x) := by
  induction p generalizing parent with
  | node top kind range ps ih =>
      have hps := (bears_node_iff.mp h).2
      rw [ids, List.mem_cons, List.mem_flatMap] at hid
      rcases hid with rfl | ⟨p, hp, hid⟩
      · exact ⟨parent, _, rfl, h, .refl _, .inl rfl⟩
      · obtain ⟨above, q, rfl, hq, hsublist, habove⟩ := ih p hp (hps p hp) hid
        have hwithin : p.ids.Sublist (Plot.node top kind range ps).ids := by
          rw [ids, List.flatMap_def]
          exact (List.sublist_flatten_of_mem (List.mem_map_of_mem hp)).trans
            (List.sublist_cons_self _ _)
        refine ⟨above, q, rfl, hq, hsublist.trans hwithin, .inr ?_⟩
        rcases habove with hroot | ⟨x, hx, habove⟩
        · refine ⟨top, root_mem_ids _, ?_, ?_⟩
          · rw [← hq.parent_eq, hroot, (hps p hp).parent_eq]
          · rw [h.children_eq, hroot]
            exact List.mem_map_of_mem hp
        · exact ⟨x, hwithin.subset hx, habove⟩

/-- Children of nodes of a plot are in the plot and name their parent. -/
theorem Bears.of_mem_children
    (h : a.Bears parent p) (hid : id ∈ p.ids) (hchild : child ∈ a.children id) :
    child ∈ p.ids ∧ a.parent child = some id := by
  obtain ⟨above, ⟨top, kind, range, qs⟩, rfl, hq, hsublist, -⟩ := h.exists_below hid
  rw [root_node, hq.children_eq] at hchild
  obtain ⟨q, hmem, rfl⟩ := List.mem_map.mp hchild
  refine ⟨hsublist.subset ?_, ((bears_node_iff.mp hq).2 q hmem).parent_eq⟩
  rw [ids]
  exact List.mem_cons_of_mem top (ids_subset_flatMap hmem _ q.root_mem_ids)

theorem Bears.nodup_children
    (h : a.Bears parent p) (hnodup : p.ids.Nodup) (hid : id ∈ p.ids) :
    (a.children id).Nodup := by
  obtain ⟨above, ⟨top, kind, range, qs⟩, rfl, hq, hsublist, -⟩ := h.exists_below hid
  have hbelow := hnodup.sublist hsublist
  rw [ids] at hbelow
  rw [root_node, hq.children_eq]
  exact (List.nodup_cons.mp hbelow).2.sublist (map_root_sublist qs)

/-- A plot has exactly the nodes that are reached from its root. -/
theorem Bears.mem_ids_iff
    (h : a.Bears parent p) : id ∈ p.ids ↔ a.Reaches p.root id := by
  constructor
  · intro hid
    induction p generalizing parent with
    | node top kind range ps ih =>
        rw [ids, List.mem_cons, List.mem_flatMap] at hid
        rcases hid with rfl | ⟨p, hp, hid⟩
        · exact .refl
        · have hchild : p.root ∈ a.children top := by
            rw [h.children_eq]
            exact List.mem_map_of_mem hp
          exact .head hchild (ih p hp ((bears_node_iff.mp h).2 p hp) hid)
  · intro hreaches
    induction hreaches with
    | refl => exact p.root_mem_ids
    | tail _ hchild ih => exact (h.of_mem_children ih hchild).1

/-- No node of a plot with distinct numbers lies below itself. -/
theorem Bears.acyclic
    (h : a.Bears parent p) (hnodup : p.ids.Nodup) (hid : id ∈ p.ids) :
    ¬ Relation.TransGen (fun id child => child ∈ a.children id) id id := by
  intro hcycle
  obtain ⟨above, ⟨top, kind, range, qs⟩, rfl, hq, hsublist, -⟩ := h.exists_below hid
  obtain ⟨child, hchild, hback⟩ := Relation.TransGen.head'_iff.mp hcycle
  rw [root_node, hq.children_eq] at hchild
  obtain ⟨q, hmem, rfl⟩ := List.mem_map.mp hchild
  have hinside := ((bears_node_iff.mp hq).2 q hmem).mem_ids_iff.mpr hback
  have hbelow := hnodup.sublist hsublist
  rw [ids] at hbelow
  exact (List.nodup_cons.mp hbelow).1 (ids_subset_flatMap hmem _ hinside)

/-- An arena is linked if all its nodes are in one plot without a parent. -/
theorem Bears.linked
    (h : a.Bears none p) (hnodup : p.ids.Nodup) (hall : ∀ id < a.size, id ∈ p.ids) :
    a.Linked := by
  have hchild : ∀ {id child}, child ∈ a.children id → id ∈ p.ids :=
    fun hmem => hall _ (lt_size_of_mem_children hmem)
  refine ⟨fun hmem => (h.of_mem_children (hchild hmem) hmem).2, ?_, ?_, ?_⟩
  · intro id above hlink
    obtain ⟨top, q, rfl, hq, -, heq | ⟨x, -, rfl, hmem⟩⟩ :=
      h.exists_below (hall id (lt_size_of_parent_eq hlink))
    · rw [heq, h.parent_eq] at hlink
      cases hlink
    · rw [hq.parent_eq] at hlink
      rwa [← Option.some.inj hlink]
  · intro id
    cases hchildren : a.children id with
    | nil => exact List.nodup_nil
    | cons child more =>
        have hmem : child ∈ a.children id := by simp [hchildren]
        rw [← hchildren]
        exact h.nodup_children hnodup (hchild hmem)
  · intro id hcycle
    obtain ⟨child, hmem, -⟩ := Relation.TransGen.head'_iff.mp hcycle
    exact h.acyclic hnodup (hchild hmem) hcycle

/-! ## Plots of linked nodes -/

/-- From the node on downwards, children name their parent, each child is listed once, and no node
lies below itself. -/
structure LinkedBelow (a : Arena) (top : NodeId) : Prop where
  lt_size : top < a.size
  parent_eq : ∀ {id child}, a.Reaches top id → child ∈ a.children id → a.parent child = some id
  nodup : ∀ {id}, a.Reaches top id → (a.children id).Nodup
  acyclic : ∀ {id}, a.Reaches top id →
    ¬ Relation.TransGen (fun id child => child ∈ a.children id) id id

theorem Linked.below
    (h : a.Linked) (hid : id < a.size) : a.LinkedBelow id :=
  ⟨hid, fun _ => h.parent_eq, fun _ => h.nodup _, fun _ => h.acyclic _⟩

namespace LinkedBelow

variable {top : NodeId}

theorem of_mem_children
    (h : a.LinkedBelow top) (hchild : child ∈ a.children top) : a.LinkedBelow child :=
  ⟨lt_size_of_parent_eq (h.parent_eq .refl hchild),
    fun hreaches => h.parent_eq (.head hchild hreaches),
    fun hreaches => h.nodup (.head hchild hreaches),
    fun hreaches => h.acyclic (.head hchild hreaches)⟩

/-- There are finitely many nodes, so going down from the node comes to an end. -/
theorem acc
    (h : a.LinkedBelow top) : Acc (fun child id => child ∈ a.children id) top := by
  let below (x y : Fin a.size) : Prop :=
    a.Reaches top y ∧ Relation.TransGen (fun id child => child ∈ a.children id) y x
  have htrans : IsTrans (Fin a.size) below := ⟨fun _ _ _ hxy hyz => ⟨hyz.1, hyz.2.trans hxy.2⟩⟩
  have hirrefl : Std.Irrefl below := ⟨fun _ hself => h.acyclic hself.1 hself.2⟩
  have hbelow : WellFounded below := Finite.wellFounded_of_trans_of_irrefl below
  have hacc : ∀ id : Fin a.size, a.Reaches top id →
      Acc (fun child id => child ∈ a.children id) id.1 := by
    intro id
    induction id using hbelow.induction with
    | _ id ih =>
        intro hid
        refine ⟨_, fun child hchild => ?_⟩
        have hlt := lt_size_of_parent_eq (h.parent_eq hid hchild)
        exact ih ⟨child, hlt⟩ ⟨hid, .single hchild⟩ (hid.tail hchild)
  exact hacc ⟨top, h.lt_size⟩ .refl

/-- Of two children of the node, none lies below the other. -/
theorem eq_of_reaches
    (h : a.LinkedBelow top) {other : NodeId} (hchild : child ∈ a.children top)
    (hother : other ∈ a.children top) (hreaches : a.Reaches child other) : child = other := by
  rcases Relation.ReflTransGen.cases_tail hreaches with heq | ⟨above, habove, hlast⟩
  · exact heq.symm
  · have hlink := h.parent_eq (.head hchild habove) hlast
    obtain rfl : above = top :=
      Option.some.inj (hlink.symm.trans (h.parent_eq .refl hother))
    exact absurd (Relation.TransGen.head' hchild habove) (h.acyclic .refl)

/-- The plots of two children of the node have no node in common. -/
theorem disjoint_ids
    (h : a.LinkedBelow top) {above other : Option NodeId} (hp : a.Bears above p)
    (hq : a.Bears other q) (hpChild : p.root ∈ a.children top) (hqChild : q.root ∈ a.children top)
    (hne : p.root ≠ q.root) : p.ids.Disjoint q.ids := by
  intro x hxp hxq
  -- On the way up from the common node, parents are unique as long as it stays below the top.
  let up (child id : NodeId) : Prop := a.Reaches top id ∧ child ∈ a.children id
  have hunique : Relator.RightUnique up := fun _ _ _ hfirst hsecond =>
    Option.some.inj ((h.parent_eq hfirst.1 hfirst.2).symm.trans (h.parent_eq hsecond.1 hsecond.2))
  have hup : ∀ {id y : NodeId}, id ∈ a.children top → a.Reaches id y →
      Relation.ReflTransGen up y id := by
    intro id y hid hreaches
    induction hreaches with
    | refl => exact .refl
    | tail hway hchild ih => exact .head ⟨.head hid hway, hchild⟩ ih
  have hdown : ∀ {y id : NodeId}, Relation.ReflTransGen up y id → a.Reaches id y := fun hway =>
    Relation.reflTransGen_swap.mp (Relation.ReflTransGen.mono (fun _ _ hlink => hlink.2) _ _ hway)
  rcases Relation.ReflTransGen.total_of_right_unique hunique
    (hup hpChild (hp.mem_ids_iff.mp hxp)) (hup hqChild (hq.mem_ids_iff.mp hxq)) with hway | hway
  · exact hne (h.eq_of_reaches hqChild hpChild (hdown hway)).symm
  · exact hne (h.eq_of_reaches hpChild hqChild (hdown hway))

/-- The node is the root of a plot with distinct numbers. -/
theorem exists_bears
    (h : a.LinkedBelow id) :
    ∃ p : Plot, p.root = id ∧ a.Bears (a.parent id) p ∧ p.ids.Nodup := by
  induction h.acc with
  | intro id _ ih =>
      obtain ⟨n, hnode⟩ := exists_node_of_lt_size h.lt_size
      have hbelow : ∀ child, child ∈ a.children id →
          ∃ p : Plot, p.root = child ∧ a.Bears (some id) p ∧ p.ids.Nodup := by
        intro child hchild
        have hplot := ih child hchild (h.of_mem_children hchild)
        rwa [h.parent_eq .refl hchild] at hplot
      have hnonempty : Nonempty Plot := ⟨.node id n.kind n.range []⟩
      choose! plot hroot hbears hnodup using hbelow
      have hroots : ((a.children id).map plot).map root = a.children id := by
        rw [List.map_map]
        exact (List.map_congr_left hroot).trans (List.map_id _)
      have hplot : a.Bears (a.parent id)
          (.node id n.kind n.range ((a.children id).map plot)) := by
        refine bears_node_iff.mpr ⟨?_, ?_⟩
        · rw [hroots]
          simp [Arena.parent, children, hnode]
        · intro p hp
          obtain ⟨child, hchild, rfl⟩ := List.mem_map.mp hp
          exact hbears child hchild
      refine ⟨_, rfl, hplot, ?_⟩
      rw [ids, List.nodup_cons]
      constructor
      · intro hmem
        obtain ⟨p, hp, hinside⟩ := List.mem_flatMap.mp hmem
        obtain ⟨child, hchild, rfl⟩ := List.mem_map.mp hp
        have hback := (hbears child hchild).mem_ids_iff.mp hinside
        rw [hroot child hchild] at hback
        exact h.acyclic .refl (Relation.TransGen.head' hchild hback)
      · rw [List.nodup_flatMap]
        refine ⟨List.forall_mem_map.mpr hnodup, List.pairwise_map.mpr ?_⟩
        refine (h.nodup .refl).imp_of_mem fun {child other} hchild hother hne => ?_
        refine h.disjoint_ids (hbears child hchild) (hbears other hother) ?_ ?_ ?_
        · rwa [hroot child hchild]
        · rwa [hroot other hother]
        · rwa [hroot child hchild, hroot other hother]

end LinkedBelow

/-- The root of a plot with distinct numbers has a linked subtree. -/
theorem Bears.linkedBelow
    (h : a.Bears parent p) (hnodup : p.ids.Nodup) : a.LinkedBelow p.root :=
  ⟨h.lt_size _ p.root_mem_ids,
    fun hreaches hchild => (h.of_mem_children (h.mem_ids_iff.mpr hreaches) hchild).2,
    fun hreaches => h.nodup_children hnodup (h.mem_ids_iff.mpr hreaches),
    fun hreaches => h.acyclic hnodup (h.mem_ids_iff.mpr hreaches)⟩

namespace Linked

/-- Every node of a linked arena is the root of a plot with distinct numbers. -/
theorem exists_bears
    (h : a.Linked) (hid : id < a.size) :
    ∃ p : Plot, p.root = id ∧ a.Bears (a.parent id) p ∧ p.ids.Nodup :=
  (h.below hid).exists_bears

/-- The parent of the root of a plot is not in the plot. -/
theorem not_mem_ids
    (h : a.Linked) {above : NodeId} (hp : a.Bears (some above) p) : above ∉ p.ids := by
  intro hinside
  have hchild : p.root ∈ a.children above := h.mem_children hp.parent_eq
  exact h.acyclic above (Relation.TransGen.head' hchild (hp.mem_ids_iff.mp hinside))

end Linked

/-! ## Links without cycles and with them -/

/-- Children and parents name each other, and each child is listed once. -/
structure Mutual (a : Arena) : Prop where
  mem_children_iff : ∀ {id child}, child ∈ a.children id ↔ a.parent child = some id
  nodup : ∀ id, (a.children id).Nodup

/-- No node lies below itself. -/
def Acyclic (a : Arena) : Prop :=
  ∀ id, ¬ Relation.TransGen (fun id child => child ∈ a.children id) id id

/-- No node that is reached from the node lies below itself. -/
def AcyclicBelow (a : Arena) (top : NodeId) : Prop :=
  ∀ id, a.Reaches top id → ¬ Relation.TransGen (fun id child => child ∈ a.children id) id id

theorem Acyclic.below
    (h : a.Acyclic) (top : NodeId) : a.AcyclicBelow top :=
  fun id _ => h id

/-- An arena is linked if its links are mutual and have no cycle. -/
theorem linked_iff : a.Linked ↔ a.Mutual ∧ a.Acyclic :=
  ⟨fun h => ⟨⟨⟨h.parent_eq, h.mem_children⟩, h.nodup⟩, h.acyclic⟩,
    fun h => ⟨h.1.mem_children_iff.mp, h.1.mem_children_iff.mpr, h.1.nodup, h.2⟩⟩

/-- With mutual links, a node below which there is no cycle has a linked subtree. -/
theorem Mutual.linkedBelow
    (h : a.Mutual) {top : NodeId} (htop : top < a.size) (hacyclic : a.AcyclicBelow top) :
    a.LinkedBelow top :=
  ⟨htop, fun _ => h.mem_children_iff.mp, fun _ => h.nodup _, fun {id} => hacyclic id⟩

/-! ## Plots rearranged in place -/

/-- A plot is rearranged below its root: it keeps the root and some of the other nodes, the nodes
that drop out stand alone, and nothing changes outside. The parent of the root is outside. -/
structure Rearranged (a b : Arena) (parent : Option NodeId) (p q : Plot) : Prop where
  before : a.Bears parent p
  after : b.Bears parent q
  nodup : q.ids.Nodup
  root_eq : q.root = p.root
  subset : q.ids ⊆ p.ids
  outside : ∀ above, parent = some above → above ∉ p.ids
  same : ∀ id ∉ p.ids, b.node? id = a.node? id
  alone : ∀ id ∈ p.ids, id ∉ q.ids → b.Alone id

namespace Rearranged

theorem children_eq
    (h : a.Rearranged b parent p q) (hid : id ∉ p.ids) : b.children id = a.children id := by
  rw [children, children, h.same id hid]

theorem parent_eq
    (h : a.Rearranged b parent p q) (hid : id ∉ p.ids) : b.parent id = a.parent id := by
  rw [Arena.parent, Arena.parent, h.same id hid]

/-- A node is outside the plot, is kept in it, or stands alone. -/
theorem cases
    (h : a.Rearranged b parent p q) (id : NodeId) :
    id ∉ p.ids ∨ id ∈ q.ids ∨ b.children id = [] ∧ b.parent id = none := by
  by_cases hid : id ∈ p.ids
  · by_cases hkept : id ∈ q.ids
    · exact .inr (.inl hkept)
    · exact .inr (.inr (h.alone id hid hkept).links)
  · exact .inl hid

end Rearranged

/-- Links stay mutual when a plot is rearranged. -/
theorem Mutual.rearrange
    (hmutual : a.Mutual) (h : a.Rearranged b parent p q) : b.Mutual := by
  have hp := h.before
  have hq := h.after
  refine ⟨⟨?_, ?_⟩, ?_⟩
  · intro hchild
    rename_i id child
    rcases h.cases id with hout | hin | ⟨hnone, -⟩
    · rw [h.children_eq hout] at hchild
      have hlink := hmutual.mem_children_iff.mp hchild
      by_cases hinside : child ∈ p.ids
      · obtain ⟨above, sub, rfl, hsub, -, heq | ⟨x, hx, rfl, -⟩⟩ := hp.exists_below hinside
        · rw [heq, hp.parent_eq] at hlink
          rw [heq, ← h.root_eq, hq.parent_eq, hlink]
        · rw [hsub.parent_eq] at hlink
          exact absurd (Option.some.inj hlink ▸ hx) hout
      · rw [h.parent_eq hinside, hlink]
    · exact (hq.of_mem_children hin hchild).2
    · rw [hnone] at hchild
      cases hchild
  · intro hlink
    rename_i above id
    rcases h.cases id with hout | hin | ⟨-, hnone⟩
    · rw [h.parent_eq hout] at hlink
      have hmem := hmutual.mem_children_iff.mpr hlink
      have hnot : above ∉ p.ids := fun hinside => hout (hp.of_mem_children hinside hmem).1
      rwa [h.children_eq hnot]
    · obtain ⟨top, sub, rfl, hsub, -, heq | ⟨x, hx, rfl, hmem⟩⟩ := hq.exists_below hin
      · -- The parent of the root is not in the plot, so it keeps its children.
        rw [heq, hq.parent_eq] at hlink
        rw [heq, h.children_eq (h.outside above hlink), h.root_eq]
        exact hmutual.mem_children_iff.mpr (hp.parent_eq.trans hlink)
      · rw [hsub.parent_eq] at hlink
        rwa [← Option.some.inj hlink]
    · rw [hnone] at hlink
      cases hlink
  · intro id
    rcases h.cases id with hout | hin | ⟨hnone, -⟩
    · rw [h.children_eq hout]
      exact hmutual.nodup id
    · exact hq.nodup_children h.nodup hin
    · rw [hnone]
      exact List.nodup_nil

/-- No cycle arises when a plot is rearranged. -/
theorem Acyclic.rearrange
    (hacyclic : a.Acyclic) (h : a.Rearranged b parent p q) : b.Acyclic := by
  have hq := h.after
  intro id hcycle
  rcases h.cases id with hout | hin | ⟨hnone, -⟩
  · -- From a node outside the plot, a way down stays outside or ends in the plot.
    have hway : ∀ {other},
        Relation.TransGen (fun id child => child ∈ b.children id) id other →
        other ∉ p.ids → Relation.TransGen (fun id child => child ∈ a.children id) id other := by
      intro other hpath
      induction hpath with
      | single hchild =>
          intro _
          exact .single (h.children_eq hout ▸ hchild)
      | @tail above other _ hchild ih =>
          intro hother
          rcases h.cases above with habove | habove | ⟨hnone, -⟩
          · exact (ih habove).tail (h.children_eq habove ▸ hchild)
          · exact absurd (h.subset (hq.of_mem_children habove hchild).1) hother
          · rw [hnone] at hchild
            cases hchild
    exact hacyclic id (hway hcycle hout)
  · exact hq.acyclic h.nodup hin hcycle
  · obtain ⟨child, hchild, -⟩ := Relation.TransGen.head'_iff.mp hcycle
    rw [hnone] at hchild
    cases hchild

/-- An arena stays linked if a plot is rearranged below its root, and the nodes that drop out of
it stand alone. -/
theorem Linked.rearrange
    (h : a.Linked) (hp : a.Bears parent p) (hq : b.Bears parent q) (hnodup : q.ids.Nodup)
    (hroot : q.root = p.root) (hsubset : q.ids ⊆ p.ids)
    (hsame : ∀ id ∉ p.ids, b.node? id = a.node? id)
    (halone : ∀ id ∈ p.ids, id ∉ q.ids → b.Alone id) : b.Linked := by
  have hrearranged : a.Rearranged b parent p q := by
    refine ⟨hp, hq, hnodup, hroot, hsubset, ?_, hsame, halone⟩
    rintro above rfl
    exact h.not_mem_ids hp
  obtain ⟨hmutual, hacyclic⟩ := linked_iff.mp h
  exact linked_iff.mpr ⟨hmutual.rearrange hrearranged, hacyclic.rearrange hrearranged⟩

end Arena

end ExprFront
