import ExprFront.Proofs.Phrase.Basic

/-!
# Transformations and well-formedness of trees

What becomes of a tree after it has been read is said here on trees alone: the
ranges of all nodes are mapped (`Tree.mapRanges`), and wrappers are collapsed
into their only child (`Tree.simplified`). `Tree.WellFormed` states the rules
that every tree in an arena is checked for. Collapsing wrappers keeps them,
since it only shrinks ranges.
-/

namespace ExprFront

namespace Tree

/-- Induction over trees, with the hypothesis for every child. -/
@[elab_as_elim, induction_eliminator]
theorem induction
    {motive : Tree → Prop}
    (node : ∀ kind range ts, (∀ t ∈ ts, motive t) → motive (.node kind range ts))
    (t : Tree) : motive t :=
  @Tree.rec motive (fun ts => ∀ t ∈ ts, motive t) node
    (fun _ ht => absurd ht List.not_mem_nil)
    (fun _ _ hhead htail t ht => by
      rcases List.mem_cons.mp ht with rfl | ht
      · exact hhead
      · exact htail t ht) t

@[simp] theorem range_node
    (kind : NodeKind) (range : TokenRange) (ts : List Tree) : (node kind range ts).range = range :=
  rfl

/-! ## Mapped ranges -/

mutual

/-- The tree in which every node has the range that its own is mapped to. -/
def mapRanges (f : TokenRange → TokenRange) : Tree → Tree
  | node kind range ts => node kind (f range) (mapRangesAll f ts)

/-- The same for several trees. -/
def mapRangesAll (f : TokenRange → TokenRange) : List Tree → List Tree
  | [] => []
  | t :: ts => t.mapRanges f :: mapRangesAll f ts

end

theorem mapRangesAll_eq_map
    (f : TokenRange → TokenRange) (ts : List Tree) :
    mapRangesAll f ts = ts.map (mapRanges f) := by
  induction ts with
  | nil => rfl
  | cons t ts ih => rw [mapRangesAll, ih, List.map_cons]

@[simp] theorem mapRanges_node
    (f : TokenRange → TokenRange) (kind : NodeKind) (range : TokenRange) (ts : List Tree) :
    (node kind range ts).mapRanges f = node kind (f range) (ts.map (mapRanges f)) := by
  rw [mapRanges, mapRangesAll_eq_map]

theorem bare_node_of_ne
    {kind : NodeKind} {range : TokenRange} {ts : List Tree}
    (h : kind = .subexpression → ts.length ≠ 1) :
    (node kind range ts).bare = node kind range ts := by
  unfold bare
  split
  · rename_i heq
    cases heq
    exact absurd rfl (h rfl)
  · rfl

/-- Whether a node is dropped does not depend on ranges. -/
theorem bare_mapRanges
    (f : TokenRange → TokenRange) (t : Tree) : (t.mapRanges f).bare = t.bare.mapRanges f := by
  obtain ⟨kind, range, ts⟩ := t
  by_cases h : kind = .subexpression → ts.length ≠ 1
  · rw [bare_node_of_ne h, mapRanges_node, bare_node_of_ne (by simpa using h)]
  · obtain ⟨rfl, hlength⟩ := Classical.not_imp.mp h
    obtain ⟨t, rfl⟩ := List.length_eq_one_iff.mp (not_not.mp hlength)
    simp [bare]

/-! ## Collapsed wrappers -/

/-- A node over collapsed trees, collapsed into its only child if it is a wrapper. -/
def collapsed (kind : NodeKind) (range : TokenRange) (ts : List Tree) : Tree :=
  match kind.isWrapper, ts with
  | true, [t] => t
  | _, _ => node kind range ts

mutual

/-- The tree in which every wrapper is collapsed into its only child. -/
def simplified : Tree → Tree
  | node kind range ts => collapsed kind range (simplifiedAll ts)

/-- The same for several trees. -/
def simplifiedAll : List Tree → List Tree
  | [] => []
  | t :: ts => t.simplified :: simplifiedAll ts

end

theorem simplifiedAll_eq_map
    (ts : List Tree) : simplifiedAll ts = ts.map simplified := by
  induction ts with
  | nil => rfl
  | cons t ts ih => rw [simplifiedAll, ih, List.map_cons]

theorem simplified_node
    (kind : NodeKind) (range : TokenRange) (ts : List Tree) :
    (node kind range ts).simplified = collapsed kind range (ts.map simplified) := by
  rw [simplified, simplifiedAll_eq_map]

@[simp] theorem collapsed_wrapper
    {kind : NodeKind} (hkind : kind.isWrapper = true) (range : TokenRange) (t : Tree) :
    collapsed kind range [t] = t := by
  simp [collapsed, hkind]

theorem collapsed_of_not_isWrapper
    {kind : NodeKind} (hkind : kind.isWrapper = false) (range : TokenRange) (ts : List Tree) :
    collapsed kind range ts = node kind range ts := by
  simp [collapsed, hkind]

theorem collapsed_of_length_ne
    (kind : NodeKind) (range : TokenRange) {ts : List Tree} (hts : ts.length ≠ 1) :
    collapsed kind range ts = node kind range ts := by
  unfold collapsed
  split
  · exact absurd rfl hts
  · rfl

/-- Dropping the node of parentheses is part of collapsing. -/
theorem simplified_bare
    (t : Tree) : t.bare.simplified = t.simplified := by
  unfold bare
  split
  · rw [simplified_node, List.map_singleton, collapsed_wrapper rfl]
  · rfl

/-! ## Well-formed trees -/

mutual

/-- The number of children fits the kind, a leaf spans one token, and the ranges of the children
are in order, disjoint and inside the range of the node, at every node of the tree. -/
def WellFormed : Tree → Prop
  | node kind range ts =>
      kind.arity.admits ts.length = true ∧ (kind.isLeaf = true → range.length = 1) ∧
        Arranged range range.start ts

/-- Well-formed trees have their ranges in order and disjoint from `cursor` on, inside a range. -/
def Arranged (range : TokenRange) : (cursor : Nat) → List Tree → Prop
  | _, [] => True
  | cursor, t :: ts =>
      range.contains t.range = true ∧ cursor ≤ t.range.start ∧ t.WellFormed ∧
        Arranged range t.range.stop ts

end

theorem Arranged.mono
    {outer range : TokenRange} {least cursor : Nat} {ts : List Tree}
    (h : Arranged range cursor ts) (hrange : outer.contains range = true)
    (hcursor : least ≤ cursor) : Arranged outer least ts := by
  induction ts generalizing least cursor with
  | nil => trivial
  | cons t ts ih =>
      obtain ⟨hinside, hle, hwell, hlater⟩ := h
      exact ⟨TokenRange.contains_trans hrange hinside, by omega, hwell, ih hlater (Nat.le_refl _)⟩

/-- Trees in order are well-formed and lie inside the range. -/
theorem Arranged.of_mem
    {range : TokenRange} {cursor : Nat} {ts : List Tree} {t : Tree} (h : Arranged range cursor ts)
    (ht : t ∈ ts) : range.contains t.range = true ∧ t.WellFormed := by
  induction ts generalizing cursor with
  | nil => cases ht
  | cons first ts ih =>
      obtain ⟨hinside, -, hwell, hlater⟩ := h
      rcases List.mem_cons.mp ht with rfl | ht
      · exact ⟨hinside, hwell⟩
      · exact ih hlater ht

theorem arranged_append
    {range : TokenRange} {cursor : Nat} {ts : List Tree} {t : Tree}
    (h : Arranged range cursor ts) (hinside : range.contains t.range = true) (hwell : t.WellFormed)
    (hcursor : cursor ≤ t.range.start) (hafter : ∀ s ∈ ts, s.range.stop ≤ t.range.start) :
    Arranged range cursor (ts ++ [t]) := by
  induction ts generalizing cursor with
  | nil => exact ⟨hinside, hcursor, hwell, trivial⟩
  | cons s ts ih =>
      obtain ⟨hs, hle, hsWell, hlater⟩ := h
      refine ⟨hs, hle, hsWell, ih hlater (hafter s List.mem_cons_self) ?_⟩
      intro u hu
      exact hafter u (List.mem_cons_of_mem s hu)

/-- Collapsing trees one by one keeps them in order. -/
theorem Arranged.map_simplified
    {range : TokenRange} {cursor : Nat} {ts : List Tree}
    (hts : ∀ t ∈ ts, t.WellFormed →
      t.simplified.WellFormed ∧ t.range.contains t.simplified.range = true)
    (h : Arranged range cursor ts) : Arranged range cursor (ts.map simplified) := by
  induction ts generalizing cursor with
  | nil => trivial
  | cons t ts ih =>
      obtain ⟨hinside, hle, hwell, hlater⟩ := h
      obtain ⟨hsimplified, hshrunk⟩ := hts t List.mem_cons_self hwell
      have htail := ih (fun s hs => hts s (List.mem_cons_of_mem t hs)) hlater
      have hends := (TokenRange.contains_iff _ _).mp hshrunk
      refine ⟨TokenRange.contains_trans hinside hshrunk, by omega, hsimplified, ?_⟩
      exact htail.mono (TokenRange.contains_self range) hends.2

/-- Collapsing wrappers keeps a tree well-formed and does not widen its range. -/
theorem WellFormed.simplified_and_contains
    {t : Tree} (h : t.WellFormed) :
    t.simplified.WellFormed ∧ t.range.contains t.simplified.range = true := by
  induction t with
  | node kind range ts ih =>
      obtain ⟨harity, hleaf, harranged⟩ := h
      have hmapped := harranged.map_simplified ih
      rw [simplified_node]
      unfold collapsed
      split
      · rename_i t hts
        rw [hts] at hmapped
        exact ⟨hmapped.2.2.1, hmapped.1⟩
      · exact ⟨⟨by simpa using harity, hleaf, hmapped⟩, TokenRange.contains_self range⟩

/-! ## Subtrees -/

/-- The first tree is the second or lies below it. -/
inductive IsSubtree : Tree → Tree → Prop
  | refl (t : Tree) : IsSubtree t t
  | child {u t : Tree} {kind : NodeKind} {range : TokenRange} {ts : List Tree} (ht : t ∈ ts)
      (hu : IsSubtree u t) : IsSubtree u (node kind range ts)

/-- The subtrees of a well-formed tree are well-formed and lie within its range. -/
theorem WellFormed.isSubtree
    {u t : Tree} (h : t.WellFormed) (hu : u.IsSubtree t) :
    u.WellFormed ∧ t.range.contains u.range = true := by
  induction hu with
  | refl => exact ⟨h, TokenRange.contains_self _⟩
  | child ht _ ih =>
      obtain ⟨hinside, hwell⟩ := h.2.2.of_mem ht
      obtain ⟨hsubtree, hcontains⟩ := ih hwell
      exact ⟨hsubtree, TokenRange.contains_trans hinside hcontains⟩

end Tree

end ExprFront
