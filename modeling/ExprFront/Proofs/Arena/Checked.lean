import ExprFront.Proofs.Arena.InPlace
import ExprFront.Proofs.Arena.Renumbered
import Mathlib.Data.Set.Card

/-!
# What the check of a subtree establishes

The check compares each child with the end of the sibling before it only, and it
stops at the first breach. Where no node lies below itself and no range ends
before it starts, it goes through exactly if every node of the subtree is in
order together with its children, any two of which are compared. As many levels
as there are nodes suffice, since a child has fewer nodes below it than its
parent. The leaves of a subtree in order, read from left to right, then cover
tokens whose indices increase, because what a child covers lies inside the range
of the child.
-/

namespace ExprFront.Arena

variable {a : Arena} {id child r : NodeId} {n c : Node} {levels cursor : Nat}

/-- The range of the earlier node ends before that of the later one starts. -/
def Precedes (a : Arena) (earlier later : NodeId) : Prop :=
  ∀ c d, a.node? earlier = some c → a.node? later = some d → c.range.stop ≤ d.range.start

/-- A node and its children are in order: the number of children fits the kind, a leaf spans one
token, the children name the node as their parent, lie inside its range, and any two of them follow
each other without overlap. -/
structure InOrder (a : Arena) (id : NodeId) (n : Node) : Prop where
  arity : n.kind.arity.admits n.children.length = true
  leaf : n.kind.isLeaf = true → n.range.length = 1
  parent : ∀ child ∈ n.children, a.parent child = some id
  inside : ∀ child ∈ n.children, ∀ c, a.node? child = some c → n.range.contains c.range = true
  siblings : n.children.Pairwise a.Precedes

/-- All nodes of the subtree are in order. -/
def InOrderBelow (a : Arena) (top : NodeId) : Prop :=
  ∀ id n, a.Reaches top id → a.node? id = some n → a.InOrder id n

/-- No range of the subtree ends before it starts. -/
def RangesBelow (a : Arena) (top : NodeId) : Prop :=
  ∀ id n, a.Reaches top id → a.node? id = some n → n.range.start ≤ n.range.stop

/-- The node has the kind of a leaf. -/
def IsLeaf (a : Arena) (id : NodeId) : Prop := ∃ n, a.node? id = some n ∧ n.kind.isLeaf = true

/-- The leaves of a subtree from left to right, down to so many levels. -/
def leavesWithin (a : Arena) : Nat → NodeId → List NodeId
  | 0, _ => []
  | levels + 1, id =>
      match a.node? id with
      | none => []
      | some n =>
          let below := n.children.flatMap (a.leavesWithin levels)
          if n.kind.isLeaf then id :: below else below

/-- The leaves of a subtree from left to right. -/
def leaves (a : Arena) (id : NodeId) : List NodeId := a.leavesWithin a.size id

/-- The indices of the tokens that a node spans. -/
def spanned (a : Arena) (id : NodeId) : List Nat :=
  match a.node? id with
  | none => []
  | some n => List.range' n.range.start n.range.length

/-! ## Levels -/

theorem AcyclicBelow.of_mem_children
    (h : a.AcyclicBelow id) (hchild : child ∈ a.children id) : a.AcyclicBelow child :=
  fun below hbelow => h below (.head hchild hbelow)

theorem children_of_node?
    (hnode : a.node? id = some n) : a.children id = n.children := by
  rw [children, hnode]

/-- The nodes of a subtree. -/
def below (a : Arena) (id : NodeId) : Set NodeId := {x | x < a.size ∧ a.Reaches id x}

theorem finite_below (a : Arena) (id : NodeId) : (a.below id).Finite :=
  (Set.finite_lt_nat a.size).subset fun _ hx => hx.1

theorem ncard_below_le (a : Arena) (id : NodeId) : (a.below id).ncard ≤ a.size := by
  have hsubset : a.below id ⊆ Finset.range a.size :=
    fun x hx => Finset.mem_coe.mpr (Finset.mem_range.mpr hx.1)
  have hle := Set.ncard_le_ncard hsubset (Finset.finite_toSet _)
  rwa [Set.ncard_coe_finset, Finset.card_range] at hle

/-- A child has fewer nodes below it, since the node itself is not among them. -/
theorem AcyclicBelow.ncard_below_lt
    (h : a.AcyclicBelow id) (hchild : child ∈ a.children id) :
    (a.below child).ncard < (a.below id).ncard := by
  apply Set.ncard_lt_ncard _ (a.finite_below id)
  refine ⟨fun x hx => ⟨hx.1, .head hchild hx.2⟩, fun hsubset => ?_⟩
  have hself : id ∈ a.below child := hsubset ⟨lt_size_of_mem_children hchild, .refl⟩
  exact h id .refl (.head' hchild hself.2)

theorem ncard_below_pos
    (hnode : a.node? id = some n) : 0 < (a.below id).ncard :=
  (Set.ncard_pos (a.finite_below id)).mpr ⟨id, lt_size_of_node? hnode, .refl⟩

/-! ## The check goes through -/

theorem checkChildren_cons_eq_ok_iff
    {checkSubtree : NodeId → Except Violation Unit} {more : List NodeId}
    (hnode : a.node? child = some c) :
    a.checkChildren checkSubtree id n cursor (child :: more) = .ok () ↔
      (c.parent = some id ∧ n.range.contains c.range = true ∧ cursor ≤ c.range.start) ∧
        checkSubtree child = .ok () ∧
          a.checkChildren checkSubtree id n c.range.stop more = .ok () := by
  have hbreach : childBreach? id n cursor child c = none ↔ _ := childBreach?_eq_none_iff
  rw [← hbreach]
  simp only [checkChildren, hnode]
  cases childBreach? id n cursor child c <;> cases checkSubtree child <;> simp

/-- The children are checked through exactly if each of them starts after the cursor and fits below
its parent, its own check goes through, and any two of them follow each other. -/
theorem checkChildren_eq_ok_iff
    {checkSubtree : NodeId → Except Violation Unit} {children : List NodeId}
    (hranges : ∀ child ∈ children, ∀ c, a.node? child = some c → c.range.start ≤ c.range.stop) :
    a.checkChildren checkSubtree id n cursor children = .ok () ↔
      (∀ child ∈ children, ∃ c, a.node? child = some c ∧ c.parent = some id ∧
        n.range.contains c.range = true ∧ cursor ≤ c.range.start ∧ checkSubtree child = .ok ()) ∧
      children.Pairwise a.Precedes := by
  induction children generalizing cursor with
  | nil => simp [checkChildren]
  | cons child more ih =>
      rw [List.forall_mem_cons] at hranges
      rw [List.forall_mem_cons, List.pairwise_cons]
      cases hnode : a.node? child with
      | none => simp [checkChildren, hnode]
      | some c =>
          have hle := hranges.1 c hnode
          rw [checkChildren_cons_eq_ok_iff hnode, ih hranges.2]
          constructor
          · rintro ⟨⟨hparent, hinside, hcursor⟩, hcheck, hmore, hsiblings⟩
            refine ⟨⟨⟨c, rfl, hparent, hinside, hcursor, hcheck⟩, ?_⟩, ?_, hsiblings⟩
            · intro other hother
              obtain ⟨d, hd, hparent, hinside, hstop, hcheck⟩ := hmore other hother
              exact ⟨d, hd, hparent, hinside, by omega, hcheck⟩
            · intro other hother c' d hc hd
              obtain ⟨d', hd', -, -, hstop, -⟩ := hmore other hother
              cases hc.symm.trans hnode
              cases hd.symm.trans hd'
              exact hstop
          · rintro ⟨⟨⟨c', hc, hparent, hinside, hcursor, hcheck⟩, hmore⟩, hstops, hsiblings⟩
            cases hc
            refine ⟨⟨hparent, hinside, hcursor⟩, hcheck, fun other hother => ?_, hsiblings⟩
            obtain ⟨d, hd, hparent, hinside, -, hcheck⟩ := hmore other hother
            exact ⟨d, hd, hparent, hinside, hstops other hother c d hnode hd, hcheck⟩

/-- A node is checked through exactly if it is in order and its children are checked through. -/
theorem checkWithin_succ_eq_ok_iff
    (hnode : a.node? id = some n)
    (hranges : ∀ child ∈ n.children, ∀ c, a.node? child = some c → c.range.start ≤ c.range.stop) :
    a.checkWithin (levels + 1) id = .ok () ↔
      a.InOrder id n ∧ ∀ child ∈ n.children, a.checkWithin levels child = .ok () := by
  have hown : a.checkWithin (levels + 1) id = .ok () ↔
      (n.kind.arity.admits n.children.length = true ∧
        (n.kind.isLeaf = true → n.range.length = 1)) ∧
      a.checkChildren (a.checkWithin levels) id n n.range.start n.children = .ok () := by
    rw [← ownBreach?_eq_none_iff]
    simp only [checkWithin, hnode]
    cases ownBreach? n <;> simp
  rw [hown, checkChildren_eq_ok_iff hranges]
  constructor
  · rintro ⟨⟨harity, hleaf⟩, hchildren, hsiblings⟩
    refine ⟨⟨harity, hleaf, ?_, ?_, hsiblings⟩, ?_⟩
    · intro child hchild
      obtain ⟨c, hc, hparent, -⟩ := hchildren child hchild
      rw [Arena.parent, hc, Option.bind_some, hparent]
    · intro child hchild c hc
      obtain ⟨d, hd, -, hinside, -⟩ := hchildren child hchild
      cases hc.symm.trans hd
      exact hinside
    · intro child hchild
      obtain ⟨-, -, -, -, -, hcheck⟩ := hchildren child hchild
      exact hcheck
  · rintro ⟨horder, hchildren⟩
    refine ⟨⟨horder.arity, horder.leaf⟩, fun child hchild => ?_, horder.siblings⟩
    obtain ⟨c, hc, hparent⟩ := Option.bind_eq_some_iff.mp (horder.parent child hchild)
    have hinside := horder.inside child hchild c hc
    exact ⟨c, hc, hparent, hinside, ((n.range.contains_iff c.range).mp hinside).1,
      hchildren child hchild⟩

/-- A subtree is in order exactly if its top and the subtrees of the children are. -/
theorem inOrderBelow_iff
    (hnode : a.node? id = some n) :
    a.InOrderBelow id ↔ a.InOrder id n ∧ ∀ child ∈ n.children, a.InOrderBelow child := by
  constructor
  · intro h
    refine ⟨h id n .refl hnode, fun child hchild below m hbelow => h below m (.head ?_ hbelow)⟩
    rwa [children_of_node? hnode]
  · rintro ⟨hself, hchildren⟩ below m hbelow hm
    rcases Relation.ReflTransGen.cases_head hbelow with rfl | ⟨child, hchild, hbelow⟩
    · cases hnode.symm.trans hm
      exact hself
    · rw [children_of_node? hnode] at hchild
      exact hchildren child hchild below m hbelow hm

theorem checkWithin_eq_ok_iff
    (hnode : a.node? id = some n) (hacyclic : a.AcyclicBelow id) (hranges : a.RangesBelow id)
    (hlevels : (a.below id).ncard ≤ levels) :
    a.checkWithin levels id = .ok () ↔ a.InOrderBelow id := by
  induction levels generalizing id n with
  | zero => exact absurd (ncard_below_pos hnode) (Nat.not_lt.mpr hlevels)
  | succ levels ih =>
      have hlink {child : NodeId} (hchild : child ∈ n.children) : child ∈ a.children id := by
        rwa [children_of_node? hnode]
      rw [inOrderBelow_iff hnode, checkWithin_succ_eq_ok_iff hnode fun child hchild c hc =>
        hranges child c (.single (hlink hchild)) hc]
      refine and_congr_right fun horder => forall₂_congr fun child hchild => ?_
      obtain ⟨c, hc, -⟩ := Option.bind_eq_some_iff.mp (horder.parent child hchild)
      refine ih hc (hacyclic.of_mem_children (hlink hchild))
        (fun below m hbelow => hranges below m (.head (hlink hchild) hbelow)) ?_
      have hlt := hacyclic.ncard_below_lt (hlink hchild)
      omega

/-! ## What the leaves cover -/

theorem mem_leavesWithin_succ_iff
    {x : NodeId} :
    x ∈ a.leavesWithin (levels + 1) id ↔
      (id = x ∧ a.IsLeaf x) ∨ ∃ child ∈ a.children id, x ∈ a.leavesWithin levels child := by
  simp only [leavesWithin, children]
  cases hnode : a.node? id with
  | none =>
      have hnot : ¬ (id = x ∧ a.IsLeaf x) := by
        rintro ⟨rfl, m, hm, -⟩
        cases hnode.symm.trans hm
      simp [hnot]
  | some n =>
      have hself : id = x ∧ a.IsLeaf x ↔ x = id ∧ n.kind.isLeaf = true := by
        constructor
        · rintro ⟨rfl, m, hm, hleaf⟩
          cases hnode.symm.trans hm
          exact ⟨rfl, hleaf⟩
        · rintro ⟨rfl, hleaf⟩
          exact ⟨rfl, n, hnode, hleaf⟩
      rw [hself]
      cases hleaf : n.kind.isLeaf <;> simp [hleaf]

/-- The leaves are the nodes of the subtree whose kind is that of a leaf. -/
theorem mem_leavesWithin_iff
    (hacyclic : a.AcyclicBelow id) (hlevels : (a.below id).ncard ≤ levels) {x : NodeId} :
    x ∈ a.leavesWithin levels id ↔ a.Reaches id x ∧ a.IsLeaf x := by
  induction levels generalizing id with
  | zero =>
      have hempty := (Set.ncard_eq_zero (a.finite_below id)).mp (Nat.le_zero.mp hlevels)
      refine ⟨fun h => (List.not_mem_nil h).elim, fun ⟨hreaches, m, hm, _⟩ => ?_⟩
      have hmem : x ∈ a.below id := ⟨lt_size_of_node? hm, hreaches⟩
      rw [hempty] at hmem
      exact hmem.elim
  | succ levels ih =>
      have hbelow : ∀ child ∈ a.children id,
          (x ∈ a.leavesWithin levels child ↔ a.Reaches child x ∧ a.IsLeaf x) := by
        intro child hchild
        have hlt := hacyclic.ncard_below_lt hchild
        exact ih (hacyclic.of_mem_children hchild) (by omega)
      have hway : a.Reaches id x ↔ id = x ∨ ∃ child ∈ a.children id, a.Reaches child x :=
        Relation.ReflTransGen.cases_head_iff
      rw [mem_leavesWithin_succ_iff, hway]
      constructor
      · rintro (⟨heq, hleaf⟩ | ⟨child, hchild, hmem⟩)
        · exact ⟨.inl heq, hleaf⟩
        · obtain ⟨hreaches, hleaf⟩ := (hbelow child hchild).mp hmem
          exact ⟨.inr ⟨child, hchild, hreaches⟩, hleaf⟩
      · rintro ⟨heq | ⟨child, hchild, hreaches⟩, hleaf⟩
        · exact .inl ⟨heq, hleaf⟩
        · exact .inr ⟨child, hchild, (hbelow child hchild).mpr ⟨hreaches, hleaf⟩⟩

theorem mem_spanned_iff
    (hnode : a.node? id = some n) {i : Nat} :
    i ∈ a.spanned id ↔ n.range.start ≤ i ∧ i < n.range.stop := by
  simp only [spanned, hnode, List.mem_range'_1, TokenRange.length]
  omega

/-- A leaf in order has no children. -/
theorem InOrder.children_eq_nil
    (h : a.InOrder id n) (hleaf : n.kind.isLeaf = true) : n.children = [] := by
  have harity := h.arity
  unfold NodeKind.isLeaf at hleaf
  simpa [Arity.admits, beq_iff_eq.mp hleaf] using harity

/-- The leaves of a subtree in order cover increasing token indices, all of them in its range. -/
theorem InOrderBelow.increasing_leavesWithin
    (h : a.InOrderBelow id) (hnode : a.node? id = some n) :
    ((a.leavesWithin levels id).flatMap a.spanned).Pairwise (· < ·) ∧
      ∀ i ∈ (a.leavesWithin levels id).flatMap a.spanned,
        n.range.start ≤ i ∧ i < n.range.stop := by
  induction levels generalizing id n with
  | zero => simp [leavesWithin]
  | succ levels ih =>
      obtain ⟨horder, hchildren⟩ := (inOrderBelow_iff hnode).mp h
      have hchild {child : NodeId} (hmem : child ∈ n.children) : ∃ c, a.node? child = some c ∧
          n.range.contains c.range = true ∧ a.InOrderBelow child := by
        obtain ⟨c, hc, -⟩ := Option.bind_eq_some_iff.mp (horder.parent child hmem)
        exact ⟨c, hc, horder.inside child hmem c hc, hchildren child hmem⟩
      cases hleaf : n.kind.isLeaf with
      | true =>
          have hspanned : (a.leavesWithin (levels + 1) id).flatMap a.spanned = a.spanned id := by
            simp [leavesWithin, hnode, hleaf, horder.children_eq_nil hleaf]
          rw [hspanned]
          refine ⟨?_, fun i => (mem_spanned_iff hnode).mp⟩
          simp only [spanned, hnode]
          exact List.pairwise_lt_range'
      | false =>
          have hbelow : (a.leavesWithin (levels + 1) id).flatMap a.spanned =
              n.children.flatMap fun child => (a.leavesWithin levels child).flatMap a.spanned := by
            simp [leavesWithin, hnode, hleaf, List.flatMap_assoc]
          rw [hbelow, List.pairwise_flatMap]
          refine ⟨⟨fun child hmem => ?_, ?_⟩, fun i hi => ?_⟩
          · obtain ⟨c, hc, -, hbelow⟩ := hchild hmem
            exact (ih hbelow hc).1
          · refine horder.siblings.imp_of_mem fun hearlier hlater hprecedes i hi j hj => ?_
            obtain ⟨c, hc, -, hbelow⟩ := hchild hearlier
            obtain ⟨d, hd, -, hbelow'⟩ := hchild hlater
            have hi := (ih hbelow hc).2 i hi
            have hj := (ih hbelow' hd).2 j hj
            have hstop := hprecedes c d hc hd
            omega
          · obtain ⟨child, hmem, hi⟩ := List.mem_flatMap.mp hi
            obtain ⟨c, hc, hinside, hbelow⟩ := hchild hmem
            have hi := (ih hbelow hc).2 i hi
            rw [TokenRange.contains_iff] at hinside
            omega

/-! ## The main result -/

/-- The check of an acyclic subtree goes through exactly if all its nodes are in order. Its leaves
then cover increasing token indices from left to right, all of them in the range of its top. -/
theorem check_iff_inOrderBelow_and_increasing
    {a : Arena} {r : NodeId} {n : Node} (hnode : a.node? r = some n) (hacyclic : a.AcyclicBelow r)
    (hranges : a.RangesBelow r) :
    (a.check r = .ok () ↔ a.InOrderBelow r) ∧
      (a.check r = .ok () →
        (∀ id, id ∈ a.leaves r ↔ a.Reaches r id ∧ a.IsLeaf id) ∧
        ((a.leaves r).flatMap a.spanned).Pairwise (· < ·) ∧
        ∀ i ∈ (a.leaves r).flatMap a.spanned, n.range.start ≤ i ∧ i < n.range.stop) := by
  have hcheck : a.check r = .ok () ↔ a.InOrderBelow r :=
    checkWithin_eq_ok_iff hnode hacyclic hranges ((a.ncard_below_le r).trans (Nat.le_succ _))
  refine ⟨hcheck, fun hok => ⟨fun id => mem_leavesWithin_iff hacyclic (a.ncard_below_le r), ?_⟩⟩
  exact (hcheck.mp hok).increasing_leavesWithin hnode

theorem rangesBelow_sampleSum : sampleSum.RangesBelow 0 := by
  have hall : ∀ n ∈ sampleSum.nodes, n.range.start ≤ n.range.stop := by decide
  exact fun id n _ hnode => hall n (Array.mem_of_getElem? hnode)

/-- The sum is checked through, although a node besides it lies below itself, and its leaves cover
the tokens of both names. -/
theorem check_iff_inOrderBelow_and_increasing_sample :
    sampleSum.check 0 = .ok () ∧ sampleSum.InOrderBelow 0 ∧
      (sampleSum.leaves 0).flatMap sampleSum.spanned = [0, 3] ∧
      ((sampleSum.leaves 0).flatMap sampleSum.spanned).Pairwise (· < ·) := by
  have hsample := check_iff_inOrderBelow_and_increasing (a := sampleSum) (r := 0) rfl
    (fun _ => linkedBelow_sampleSum.acyclic) rangesBelow_sampleSum
  have hcheck : sampleSum.check 0 = .ok () := by decide
  exact ⟨hcheck, hsample.1.mp hcheck, by decide, (hsample.2 hcheck).2.1⟩

end ExprFront.Arena
