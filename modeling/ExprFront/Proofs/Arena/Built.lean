import ExprFront.Arena.Build
import ExprFront.Proofs.Arena.Plot
import Mathlib.Tactic.ByContra

/-!
# Putting trees into an arena

Attaching the root of a plot to a node changes the parent of the root and the
children of the node, and nothing else. From this, putting a tree into an arena
never fails: it leaves the nodes that were there before alone, and bears a plot
of the tree under new numbers.
-/

namespace ExprFront.Arena

open Plot

variable {a b c : Arena}

/-! ## Attaching a root -/

/-- A node without a parent is attached to another; all other nodes stay as they were. -/
theorem exists_pushBack
    {parent child : NodeId} {n c : Node} (hparent : a.node? parent = some n)
    (hchild : a.node? child = some c) (hc : c.parent = none) (hne : child ≠ parent) :
    ∃ b, a.pushBack parent child = .ok b ∧ b.size = a.size ∧
      b.node? parent = some { n with children := n.children ++ [child] } ∧
      b.node? child = some { c with parent := some parent } ∧
      ∀ id, id ≠ parent → id ≠ child → b.node? id = a.node? id := by
  have hset := (a.setParent_eq_ok_iff _ parent child).mpr
    ⟨⟨c, hchild, hc⟩, by simp [hparent], rfl⟩
  refine ⟨_, by rw [pushBack, hset]; rfl, by simp, ?_, ?_, ?_⟩
  · simp [node?_modify, hne, hparent]
  · simp [node?_modify, hne.symm, hchild]
  · intro id hidParent hidChild
    simp [node?_modify, hidParent.symm, hidChild.symm]

theorem size_pushBack
    {parent child : NodeId} (h : a.pushBack parent child = .ok b) : b.size = a.size := by
  unfold pushBack at h
  cases hparent : a.setParent parent child with
  | error f =>
      rw [hparent] at h
      cases h
  | ok c =>
      rw [hparent] at h
      cases h
      obtain ⟨-, -, rfl⟩ := (a.setParent_eq_ok_iff _ parent child).mp hparent
      simp

theorem size_pushBackAll
    {parent : NodeId} {ids : List NodeId} (h : a.pushBackAll parent ids = .ok b) :
    b.size = a.size := by
  induction ids generalizing a with
  | nil =>
      cases h
      rfl
  | cons id ids ih =>
      rw [pushBackAll] at h
      split at h
      · rename_i c hpush
        rw [ih h, size_pushBack hpush]
      · cases h

/-- The root of a plot is attached to a node outside the plot. -/
theorem Bears.exists_pushBack
    {parent : NodeId} {n : Node} {p : Plot} (h : a.Bears none p) (hnodup : p.ids.Nodup)
    (hparent : a.node? parent = some n) (houtside : parent ∉ p.ids) :
    ∃ b, a.pushBack parent p.root = .ok b ∧ b.size = a.size ∧
      b.node? parent = some { n with children := n.children ++ [p.root] } ∧
      b.Bears (some parent) p ∧
      ∀ id, id ≠ parent → id ≠ p.root → b.node? id = a.node? id := by
  obtain ⟨ids, hroot⟩ := h.node?_root
  have hne : p.root ≠ parent := by
    rintro rfl
    exact houtside p.root_mem_ids
  obtain ⟨b, hpush, hsize, hnode, hchild, hsame⟩ := Arena.exists_pushBack hparent hroot rfl hne
  refine ⟨b, hpush, hsize, hnode, h.reparent hnodup (by rw [hchild, hroot]; rfl) ?_, hsame⟩
  intro id hid hidRoot
  refine hsame id ?_ hidRoot
  rintro rfl
  exact houtside hid

/-- The roots of several plots are attached to a node one after the other. -/
theorem exists_pushBackAll
    {parent : NodeId} {n : Node} {ps : List Plot} (hps : ∀ p ∈ ps, a.Bears none p)
    (hnodup : (ps.flatMap ids).Nodup) (hparent : a.node? parent = some n)
    (houtside : parent ∉ ps.flatMap ids) :
    ∃ b, a.pushBackAll parent (ps.map root) = .ok b ∧ b.size = a.size ∧
      b.node? parent = some { n with children := n.children ++ ps.map root } ∧
      (∀ p ∈ ps, b.Bears (some parent) p) ∧
      ∀ id, id ≠ parent → id ∉ ps.flatMap ids → b.node? id = a.node? id := by
  induction ps generalizing a n with
  | nil => exact ⟨a, rfl, rfl, by simp [hparent], by simp, fun _ _ _ => rfl⟩
  | cons p ps ih =>
      rw [List.flatMap_cons, List.nodup_append'] at hnodup
      rw [List.flatMap_cons, List.mem_append, not_or] at houtside
      obtain ⟨hp, hrest, hdisjoint⟩ := hnodup
      obtain ⟨a₁, hpush, hsize₁, hnode₁, hbears₁, hsame₁⟩ :=
        (hps p List.mem_cons_self).exists_pushBack hp hparent houtside.1
      have hps₁ : ∀ q ∈ ps, a₁.Bears none q := by
        intro q hq
        apply (hps q (List.mem_cons_of_mem p hq)).congr
        intro id hid
        have hmem := ids_subset_flatMap hq id hid
        refine hsame₁ id ?_ ?_
        · rintro rfl
          exact houtside.2 hmem
        · rintro rfl
          exact hdisjoint p.root_mem_ids hmem
      obtain ⟨b, hall, hsize, hnode, hbears, hsame⟩ := ih hps₁ hrest hnode₁ houtside.2
      refine ⟨b, ?_, hsize.trans hsize₁, by simpa using hnode, ?_, ?_⟩
      · simp only [List.map_cons, pushBackAll, hpush, hall]
      · intro q hq
        rcases List.mem_cons.mp hq with rfl | hq
        · refine hbears₁.congr fun id hid => hsame id ?_ (hdisjoint hid)
          rintro rfl
          exact houtside.1 hid
        · exact hbears q hq
      · intro id hid hnot
        rw [List.flatMap_cons, List.mem_append, not_or] at hnot
        have hroot : id ≠ p.root := by
          rintro rfl
          exact hnot.1 p.root_mem_ids
        rw [hsame id hid hnot.2, hsame₁ id hid hroot]

/-! ## New plots -/

/-- All nodes of the first arena are nodes of the second, unchanged. -/
def Extends (a b : Arena) : Prop :=
  ∀ id < a.size, b.node? id = a.node? id

theorem Extends.size_le
    (h : a.Extends b) : a.size ≤ b.size := by
  by_contra hlt
  have hsome := (a.node?_isSome_iff b.size).mpr (Nat.lt_of_not_le hlt)
  rw [← h b.size (Nat.lt_of_not_le hlt), node?_isSome_iff] at hsome
  exact Nat.lt_irrefl _ hsome

theorem Extends.refl (a : Arena) : a.Extends a :=
  fun _ _ => rfl

theorem Extends.trans
    (hab : a.Extends b) (hbc : b.Extends c) : a.Extends c := by
  intro id hid
  rw [hbc id (Nat.lt_of_lt_of_le hid hab.size_le), hab id hid]

theorem extends_add
    (a : Arena) (kind : NodeKind) (range : TokenRange) : a.Extends (a.add kind range).2 := by
  intro id hid
  rw [node?_add_snd, if_neg (Nat.ne_of_lt hid)]

/-- Plots that are borne stay so in a larger arena. -/
theorem Extends.bears
    {parent : Option NodeId} {p : Plot} (hab : a.Extends b) (h : a.Bears parent p) :
    b.Bears parent p :=
  h.congr fun id hid => hab id (h.lt_size id hid)

/-- The second arena bears plots under new numbers, and is the first one otherwise. -/
structure Gains (a b : Arena) (ps : List Plot) : Prop where
  extended : a.Extends b
  bears : ∀ p ∈ ps, b.Bears none p
  fresh : ∀ id ∈ ps.flatMap ids, a.size ≤ id
  nodup : (ps.flatMap ids).Nodup

theorem Gains.nil (a : Arena) : a.Gains a [] :=
  ⟨.refl a, by simp, by simp, by simp⟩

/-- Plots gained later are gained besides those gained before. -/
theorem Gains.append
    {ps qs : List Plot} (hab : a.Gains b ps) (hbc : b.Gains c qs) : a.Gains c (ps ++ qs) := by
  refine ⟨hab.extended.trans hbc.extended, ?_, ?_, ?_⟩
  · intro p hp
    rcases List.mem_append.mp hp with hp | hp
    · exact hbc.extended.bears (hab.bears p hp)
    · exact hbc.bears p hp
  · intro id hid
    rw [List.flatMap_append, List.mem_append] at hid
    rcases hid with hid | hid
    · exact hab.fresh id hid
    · exact Nat.le_trans hab.extended.size_le (hbc.fresh id hid)
  · rw [List.flatMap_append, List.nodup_append']
    refine ⟨hab.nodup, hbc.nodup, fun id hid hlater => ?_⟩
    obtain ⟨p, hp, hid⟩ := List.mem_flatMap.mp hid
    exact Nat.not_lt.mpr (hbc.fresh id hlater) ((hab.bears p hp).lt_size id hid)

/-- A new node over gained plots is the root of a gained plot. -/
theorem Gains.exists_add
    {ps : List Plot} (h : a.Gains b ps) (kind : NodeKind) (range : TokenRange) :
    ∃ c, (b.add kind range).2.pushBackAll b.size (ps.map root) = .ok c ∧
      a.Gains c [.node b.size kind range ps] := by
  have hextends := b.extends_add kind range
  have hnode : (b.add kind range).2.node? b.size = some ⟨kind, range, [], none⟩ := by
    simp [node?_add_snd]
  have hnew : b.size ∉ ps.flatMap ids := by
    intro hmem
    obtain ⟨p, hp, hid⟩ := List.mem_flatMap.mp hmem
    exact Nat.lt_irrefl _ ((h.bears p hp).lt_size _ hid)
  obtain ⟨c, hpush, -, hroot, hbears, hsame⟩ :=
    exists_pushBackAll (fun p hp => hextends.bears (h.bears p hp)) h.nodup hnode hnew
  refine ⟨c, hpush, ?_, ?_, ?_, ?_⟩
  · intro id hid
    have hlt := Nat.lt_of_lt_of_le hid h.extended.size_le
    have hold : id ∉ ps.flatMap ids := fun hmem => Nat.not_lt.mpr (h.fresh id hmem) hid
    rw [hsame id (Nat.ne_of_lt hlt) hold, hextends id hlt, h.extended id hid]
  · rintro p hp
    rw [List.mem_singleton.mp hp]
    exact bears_node_iff.mpr ⟨by simpa using hroot, hbears⟩
  · intro id hid
    rw [List.flatMap_singleton, ids, List.mem_cons] at hid
    rcases hid with rfl | hid
    · exact h.extended.size_le
    · exact h.fresh id hid
  · rw [List.flatMap_singleton, ids]
    exact List.nodup_cons.mpr ⟨hnew, h.nodup⟩

/-! ## Building -/

/-- A plot is gained below a node that was there before: all but that node stay as they were. -/
structure GainsBelow (a b : Arena) (id : NodeId) (n : Node) (ps : List Plot) : Prop where
  size_le : a.size ≤ b.size
  node : b.node? id = some { n with children := n.children ++ ps.map root }
  same : ∀ other < a.size, other ≠ id → b.node? other = a.node? other
  bears : ∀ p ∈ ps, b.Bears (some id) p
  fresh : ∀ other ∈ ps.flatMap ids, a.size ≤ other
  nodup : (ps.flatMap ids).Nodup

/-- A gained plot is attached to a node that was there before. -/
theorem Gains.exists_pushBack
    {id : NodeId} {n : Node} {p : Plot} (h : a.Gains b [p]) (hnode : a.node? id = some n) :
    ∃ c, b.pushBack id p.root = .ok c ∧ a.GainsBelow c id n [p] := by
  have hlt := lt_size_of_node? hnode
  have hp := List.mem_singleton_self p
  have houtside : id ∉ p.ids := fun hmem =>
    Nat.not_lt.mpr (h.fresh id (ids_subset_flatMap hp id hmem)) hlt
  obtain ⟨c, hpush, hsize, hroot, hbears, hsame⟩ :=
    (h.bears p hp).exists_pushBack (nodup_ids_of_mem h.nodup hp)
      ((h.extended id hlt).trans hnode) houtside
  have hle : a.size ≤ c.size := by
    rw [hsize]
    exact h.extended.size_le
  refine ⟨c, hpush, hle, hroot, ?_, ?_, h.fresh, h.nodup⟩
  · intro other hother hne
    have hroot : other ≠ p.root := by
      rintro rfl
      exact Nat.not_lt.mpr (h.fresh _ (ids_subset_flatMap hp _ p.root_mem_ids)) hother
    rw [hsame other hne hroot, h.extended other hother]
  · intro q hq
    rwa [List.mem_singleton.mp hq]

/-- Plots gained later below a node are gained below it besides those gained before. -/
theorem GainsBelow.append
    {id : NodeId} {n : Node} {ps qs : List Plot} (hnode : a.node? id = some n)
    (hab : a.GainsBelow b id n ps)
    (hbc : b.GainsBelow c id { n with children := n.children ++ ps.map root } qs) :
    a.GainsBelow c id n (ps ++ qs) := by
  have hid := lt_size_of_node? hnode
  refine ⟨Nat.le_trans hab.size_le hbc.size_le, by simpa using hbc.node, ?_, ?_, ?_, ?_⟩
  · intro other hother hne
    rw [hbc.same other (Nat.lt_of_lt_of_le hother hab.size_le) hne, hab.same other hother hne]
  · intro p hp
    rcases List.mem_append.mp hp with hp | hp
    · apply (hab.bears p hp).congr
      intro other hother
      apply hbc.same other ((hab.bears p hp).lt_size other hother)
      rintro rfl
      exact Nat.not_lt.mpr (hab.fresh other (ids_subset_flatMap hp other hother)) hid
    · exact hbc.bears p hp
  · intro other hother
    rw [List.flatMap_append, List.mem_append] at hother
    rcases hother with hother | hother
    · exact hab.fresh other hother
    · exact Nat.le_trans hab.size_le (hbc.fresh other hother)
  · rw [List.flatMap_append, List.nodup_append']
    refine ⟨hab.nodup, hbc.nodup, fun other hother hlater => ?_⟩
    obtain ⟨p, hp, hother⟩ := List.mem_flatMap.mp hother
    exact Nat.not_lt.mpr (hbc.fresh other hlater) ((hab.bears p hp).lt_size other hother)

/-- Plots gained below the root of a plot become its last children. -/
theorem Bears.append
    {parent : Option NodeId} {id : NodeId} {kind : NodeKind} {range : TokenRange}
    {ps qs : List Plot} (h : a.Bears parent (.node id kind range ps))
    (hnodup : (Plot.node id kind range ps).ids.Nodup)
    (hgains : a.GainsBelow b id ⟨kind, range, ps.map root, parent⟩ qs) :
    b.Bears parent (.node id kind range (ps ++ qs)) ∧
      (Plot.node id kind range (ps ++ qs)).ids.Nodup := by
  have hlt := h.lt_size
  obtain ⟨-, hps⟩ := bears_node_iff.mp h
  rw [ids] at hnodup hlt
  have hid := (List.nodup_cons.mp hnodup).1
  constructor
  · refine bears_node_iff.mpr ⟨by simpa using hgains.node, fun p hp => ?_⟩
    rcases List.mem_append.mp hp with hp | hp
    · apply (hps p hp).congr
      intro other hother
      apply hgains.same other ((hps p hp).lt_size other hother)
      rintro rfl
      exact hid (ids_subset_flatMap hp other hother)
    · exact hgains.bears p hp
  · rw [ids, List.flatMap_append, ← List.cons_append, List.nodup_append']
    refine ⟨hnodup, hgains.nodup, fun other hother hnew => ?_⟩
    exact Nat.not_lt.mpr (hgains.fresh other hnew) (hlt other hother)

/-- Putting a tree into an arena gains a plot of it. -/
def Builds (t : Tree) : Prop :=
  ∀ a : Arena, ∃ p b, a.build t = .ok (p.root, b) ∧ p.tree = t ∧ a.Gains b [p]

theorem exists_buildAll
    {ts : List Tree} (hts : ∀ t ∈ ts, Builds t) (a : Arena) :
    ∃ ps b, a.buildAll ts = .ok (ps.map root, b) ∧ ps.map tree = ts ∧ a.Gains b ps := by
  induction ts generalizing a with
  | nil => exact ⟨[], a, rfl, rfl, .nil a⟩
  | cons t ts ih =>
      obtain ⟨p, a₁, hbuild, htree, hgains⟩ := hts t List.mem_cons_self a
      obtain ⟨ps, b, hall, htrees, hgainsAll⟩ :=
        ih (fun s hs => hts s (List.mem_cons_of_mem t hs)) a₁
      refine ⟨p :: ps, b, ?_, by simp [htree, htrees], hgains.append hgainsAll⟩
      simp only [buildAll, hbuild, hall, List.map_cons]

theorem exists_buildInto
    {ts : List Tree} (hts : ∀ t ∈ ts, Builds t) {id : NodeId} {n : Node}
    (hnode : a.node? id = some n) :
    ∃ ps b, a.buildInto id ts = .ok b ∧ ps.map tree = ts ∧ a.GainsBelow b id n ps := by
  induction ts generalizing a n with
  | nil =>
      refine ⟨[], a, rfl, rfl, Nat.le_refl _, by simp [hnode], fun _ _ _ => rfl, by simp, by simp,
        by simp⟩
  | cons t ts ih =>
      obtain ⟨p, a₁, hbuild, htree, hgains⟩ := hts t List.mem_cons_self a
      obtain ⟨a₂, hpush, hbelow⟩ := hgains.exists_pushBack hnode
      obtain ⟨ps, b, hinto, htrees, hbelowAll⟩ :=
        ih (fun s hs => hts s (List.mem_cons_of_mem t hs)) hbelow.node
      refine ⟨p :: ps, b, ?_, by simp [htree, htrees], hbelow.append hnode hbelowAll⟩
      simp only [buildInto, hbuild, hpush, hinto]

/-- A new node with plots gained below it is the root of a gained plot. -/
theorem GainsBelow.gains
    {kind : NodeKind} {range : TokenRange} {ps : List Plot}
    (h : (a.add kind range).2.GainsBelow b a.size ⟨kind, range, [], none⟩ ps) :
    a.Gains b [.node a.size kind range ps] := by
  have hextends := a.extends_add kind range
  have hlt : ∀ id ∈ ps.flatMap ids, a.size < id := by
    intro id hid
    have := h.fresh id hid
    rwa [size_add_snd] at this
  refine ⟨?_, ?_, ?_, ?_⟩
  · intro id hid
    rw [h.same id (Nat.lt_of_lt_of_le hid hextends.size_le) (Nat.ne_of_lt hid), hextends id hid]
  · intro p hp
    rw [List.mem_singleton.mp hp]
    exact bears_node_iff.mpr ⟨by simpa using h.node, h.bears⟩
  · intro id hid
    rw [List.flatMap_singleton, ids, List.mem_cons] at hid
    rcases hid with rfl | hid
    · exact Nat.le_refl _
    · exact Nat.le_of_lt (hlt id hid)
  · rw [List.flatMap_singleton, ids]
    exact List.nodup_cons.mpr ⟨fun hmem => Nat.lt_irrefl _ (hlt _ hmem), h.nodup⟩

/-- Every tree can be put into every arena. -/
theorem builds
    (t : Tree) : Builds t := by
  induction t with
  | node kind range ts ih =>
      intro a
      by_cases hlist : kind.isList = true
      · have hnode : (a.add kind range).2.node? a.size = some ⟨kind, range, [], none⟩ := by
          simp [node?_add_snd]
        obtain ⟨ps, b, hinto, htrees, hbelow⟩ := exists_buildInto ih hnode
        refine ⟨.node a.size kind range ps, b, ?_, by rw [tree, htrees], hbelow.gains⟩
        simp only [build, hlist, if_true, add_fst, hinto, root_node]
      · obtain ⟨ps, b, hall, htrees, hgains⟩ := exists_buildAll ih a
        obtain ⟨c, hpush, hgainsNode⟩ := hgains.exists_add kind range
        refine ⟨.node b.size kind range ps, c, ?_, by rw [tree, htrees], hgainsNode⟩
        simp only [build, hlist, Bool.false_eq_true, if_false, hall, add_fst, hpush, root_node]

end ExprFront.Arena
