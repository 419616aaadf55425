import ExprFront.Proofs.Phrase.Brackets
import ExprFront.Proofs.Tree.Shape

/-!
# The trees of phrases are well-formed

The tree of a spelled phrase spans the tokens of the phrase, and its children
span the tokens of the operands, one after the other. The number of children of
an operation is that of its operands, since a token denotes an operation only in
the place that fits it.
-/

namespace ExprFront

namespace Tree

/-- The node of parentheses is dropped from a well-formed tree. -/
theorem WellFormed.bare
    {t : Tree} (h : t.WellFormed) : t.bare.WellFormed ∧ t.range.contains t.bare.range = true := by
  unfold Tree.bare
  split
  · obtain ⟨-, -, hinside, -, hwell, -⟩ := h
    exact ⟨hwell, hinside⟩
  · exact ⟨h, TokenRange.contains_self _⟩

/-- A node over one well-formed tree. -/
theorem wellFormed_singleton
    {kind : NodeKind} {range : TokenRange} {t : Tree} (harity : kind.arity = .unary)
    (hinside : range.contains t.range = true) (hwell : t.WellFormed) :
    (node kind range [t]).WellFormed := by
  refine ⟨by simp [harity, Arity.admits], by simp [NodeKind.isLeaf, harity], hinside, ?_, hwell,
    trivial⟩
  exact ((TokenRange.contains_iff _ _).mp hinside).1

/-- A node over two well-formed trees, of which the second comes after the first. -/
theorem wellFormed_pair
    {kind : NodeKind} {range : TokenRange} {t u : Tree} (harity : kind.arity = .binary)
    (hinside : range.contains t.range = true) (hinside' : range.contains u.range = true)
    (hle : t.range.stop ≤ u.range.start) (hwell : t.WellFormed) (hwell' : u.WellFormed) :
    (node kind range [t, u]).WellFormed := by
  refine ⟨by simp [harity, Arity.admits], by simp [NodeKind.isLeaf, harity], hinside, ?_, hwell,
    hinside', hle, hwell', trivial⟩
  exact ((TokenRange.contains_iff _ _).mp hinside).1

end Tree

namespace Phrase

variable {tokens : Array Token}

/-- The tree of a part, and what comes after it, are in order. -/
theorem arranged_cons
    {p : Phrase} {ts : List Tree} {range : TokenRange} {start cursor : Nat}
    (hwell : (p.tree start).WellFormed) (hstart : range.start ≤ start) (hcursor : cursor ≤ start)
    (hstop : start + p.width ≤ range.stop) (hts : Tree.Arranged range (start + p.width) ts) :
    Tree.Arranged range cursor ((p.tree start).bare :: ts) := by
  obtain ⟨hbare, hinside⟩ := hwell.bare
  rw [range_tree] at hinside
  have hends := (TokenRange.contains_iff _ _).mp hinside
  refine ⟨?_, Nat.le_trans hcursor hends.1, hbare, ?_⟩
  · exact TokenRange.contains_trans ((TokenRange.contains_iff _ _).mpr ⟨hstart, hstop⟩) hinside
  · exact hts.mono (TokenRange.contains_self range) hends.2

/-- The trees of parts with a token between each two are in order inside every range that holds
the parts. -/
theorem arranged_partTrees
    {parts : List Phrase}
    (hparts : ∀ p ∈ parts, ∀ start, p.Spells tokens start → (p.tree start).WellFormed)
    {range : TokenRange} {start cursor : Nat} (h : EachSpells tokens parts start)
    (hstart : range.start ≤ start) (hcursor : cursor ≤ start)
    (hstop : start + laterWidth parts ≤ range.stop + 1) :
    Tree.Arranged range cursor (partTrees parts start) := by
  induction parts generalizing start cursor with
  | nil => trivial
  | cons p ps ih =>
      obtain ⟨hp, hps⟩ := h
      simp only [laterWidth] at hstop
      have htail := ih (fun q hq => hparts q (List.mem_cons_of_mem p hq)) hps (by omega)
        (Nat.le_succ (start + p.width)) (by omega)
      exact arranged_cons (hparts p List.mem_cons_self _ hp) hstart hcursor (by omega) htail

theorem length_partTrees
    (parts : List Phrase) (start : Nat) : (partTrees parts start).length = parts.length := by
  induction parts generalizing start with
  | nil => rfl
  | cons p ps ih => rw [partTrees, List.length_cons, List.length_cons, ih]

/-- A node for a bracket group is well-formed if its kind admits so many parts. -/
theorem wellFormed_group
    {b : Bracket} {parts : List Phrase}
    (hparts : ∀ p ∈ parts, ∀ start, p.Spells tokens start → (p.tree start).WellFormed)
    {start : Nat} (h : (group b parts).Spells tokens start) {kind : NodeKind}
    (harity : kind.arity.admits parts.length = true) (hkind : kind.isLeaf = false) :
    (Tree.node kind ⟨start, start + (partsWidth parts + 2)⟩
      (partTrees parts (start + 1))).WellFormed := by
  have hspells := SpellsParts.eachSpells h.2.1
  have hwidth := laterWidth_le_partsWidth parts
  refine ⟨by rwa [length_partTrees], by simp [hkind], ?_⟩
  apply arranged_partTrees hparts hspells (Nat.le_succ start) (Nat.le_succ start)
  simp only
  omega

/-- The tree of a spelled phrase is well-formed if grouping parentheses hold one part each. -/
theorem wellFormed_tree
    {p : Phrase} {start : Nat} (h : p.Spells tokens start) (hsingle : p.Single) :
    (p.tree start).WellFormed := by
  induction p generalizing start with
  | leaf kind =>
      obtain ⟨k, -, hleaf⟩ := exists_of_spells_leaf h
      have harity := NodeKind.arity_of_ofToken? hleaf
      refine ⟨by simp [harity, Arity.admits], fun _ => ?_, trivial⟩
      simp [TokenRange.length]
  | group b parts ih =>
      obtain ⟨hone, hall⟩ := hsingle
      refine wellFormed_group (fun p hp start hs => ih p hp hs (allSingle_iff.mp hall p hp)) h ?_ ?_
      · cases b with
        | paren => simp [Bracket.nodeKind, NodeKind.arity, Arity.admits, hone rfl]
        | square | brace => rfl
      · cases b <;> rfl
  | before op operand ih =>
      obtain ⟨k, -, hbefore⟩ := exists_of_spells_before h
      refine Tree.wellFormed_singleton ?_ ?_ (ih h.2 hsingle)
      · simp [NodeKind.arity, TokenKind.operands_of_before hbefore]
      · rw [range_tree, TokenRange.contains_iff]
        simp only
        omega
  | after operand op ih =>
      obtain ⟨k, -, hafter⟩ := exists_of_spells_after h
      refine Tree.wellFormed_singleton ?_ ?_ (ih h.1 hsingle)
      · simp [NodeKind.arity, TokenKind.operands_of_after hafter]
      · rw [range_tree, TokenRange.contains_iff]
        simp only
        omega
  | applied callee b parts ihCallee ihParts =>
      obtain ⟨hcallee, hgroup⟩ := spells_applied_iff.mp h
      have harguments : (Tree.node (Reading.groupRole b).2.1 _ _).WellFormed :=
        wellFormed_group
          (fun p hp start hs => ihParts p hp hs (allSingle_iff.mp hsingle.2 p hp)) hgroup
          (by cases b <;> rfl) (by cases b <;> rfl)
      refine Tree.wellFormed_pair ?_ ?_ ?_ ?_ (ihCallee hcallee hsingle.1) harguments
      · cases b <;> rfl
      · rw [range_tree, TokenRange.contains_iff]
        simp only
        omega
      · rw [Tree.range_node, TokenRange.contains_iff]
        simp only
        omega
      · exact Nat.le_of_eq (by rw [range_tree, Tree.range_node])
  | between left op right ihLeft ihRight =>
      obtain ⟨k, -, hbetween⟩ := exists_of_spells_between h
      refine Tree.wellFormed_pair ?_ ?_ ?_ ?_ (ihLeft h.1 hsingle.1) (ihRight h.2.2 hsingle.2)
      · simp [NodeKind.arity, (TokenKind.entry_of_between hbetween).2]
      · rw [range_tree, TokenRange.contains_iff]
        simp only
        omega
      · rw [range_tree, TokenRange.contains_iff]
        simp only
        omega
      · rw [range_tree, range_tree]
        exact Nat.le_succ _

end Phrase

end ExprFront
