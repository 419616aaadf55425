import ExprFront.Proofs.Phrase.Order
import ExprFront.Proofs.Phrase.WellFormed

/-!
# The subtrees of a phrase

The rules on operands are conditions on every operation of a phrase, so whatever
is a phrase within a phrase obeys them too. In the tree without wrappers, every
subtree is therefore the tree of a phrase of its own, at the tokens that it
spans; only the bracket groups after an operand are no phrases.
-/

namespace ExprFront

/-- Whether nodes of the kind are the bracket groups after an operand. -/
def NodeKind.isArguments : NodeKind → Bool
  | arguments | indexArguments | typeArguments => true
  | _ => false

namespace Tree

/-- The tree is that of a phrase at the tokens that it spans, but for the wrappers. -/
def IsPhrase (tokens : Array Token) (t : Tree) : Prop :=
  ∃ p : Phrase, p.Covers tokens t.range ∧ p.Ordered ∧ p.Single ∧
    (p.tree t.range.start).simplified = t

/-- Every subtree is that of a phrase, unless it is a bracket group after an operand. -/
def Phrased (tokens : Array Token) (t : Tree) : Prop :=
  ∀ u : Tree, u.IsSubtree t → u.kind.isArguments = true ∨ u.IsPhrase tokens

theorem phrased_node
    {tokens : Array Token} {kind : NodeKind} {range : TokenRange} {ts : List Tree}
    (hroot : kind.isArguments = true ∨ (node kind range ts).IsPhrase tokens)
    (hts : ∀ t ∈ ts, t.Phrased tokens) : (node kind range ts).Phrased tokens := by
  intro u hu
  cases hu with
  | refl => exact hroot
  | child ht hu => exact hts _ ht u hu

end Tree

namespace Phrase

variable {tokens : Array Token}

/-- A phrase whose node is no wrapper is phrased if the subtrees of the node are. -/
theorem phrased_of_node
    {p : Phrase} {start : Nat} {kind : NodeKind} {range : TokenRange} {ts : List Tree}
    (h : p.Spells tokens start) (hordered : p.Ordered) (hsingle : p.Single)
    (htree : p.tree start = .node kind range ts) (hkind : kind.isWrapper = false)
    (hts : ∀ t ∈ ts, t.simplified.Phrased tokens) : (p.tree start).simplified.Phrased tokens := by
  have hsimplified : (p.tree start).simplified = .node kind range (ts.map Tree.simplified) := by
    rw [htree, Tree.simplified_node, Tree.collapsed_of_not_isWrapper hkind]
  have hrange : range = ⟨start, start + p.width⟩ := by
    rw [← range_tree, htree, Tree.range_node]
  subst hrange
  rw [hsimplified]
  refine Tree.phrased_node (.inr ⟨p, ⟨h, rfl⟩, hordered, hsingle, hsimplified⟩) ?_
  simpa using hts

/-- The trees of the parts of a group are those of its parts. -/
theorem exists_of_mem_partTrees
    {parts : List Phrase} {start : Nat} {t : Tree} (h : EachSpells tokens parts start)
    (ht : t ∈ partTrees parts start) :
    ∃ p ∈ parts, ∃ index, p.Spells tokens index ∧ t = (p.tree index).bare := by
  induction parts generalizing start with
  | nil => cases ht
  | cons p ps ih =>
      rcases List.mem_cons.mp ht with rfl | ht
      · exact ⟨p, List.mem_cons_self, start, h.1, rfl⟩
      · obtain ⟨q, hq, hexists⟩ := ih h.2 ht
        exact ⟨q, List.mem_cons_of_mem p hq, hexists⟩

/-- The parts of a group are phrased if each of them is wherever it is spelled. -/
theorem phrased_of_mem_partTrees
    {b : Bracket} {parts : List Phrase} {start : Nat}
    (hparts : ∀ p ∈ parts, ∀ index, p.Spells tokens index →
      (p.tree index).simplified.Phrased tokens)
    (h : (group b parts).Spells tokens start) :
    ∀ t ∈ partTrees parts (start + 1), t.simplified.Phrased tokens := by
  intro t ht
  obtain ⟨p, hp, index, hspells, rfl⟩ := exists_of_mem_partTrees h.2.1.eachSpells ht
  rw [Tree.simplified_bare]
  exact hparts p hp index hspells

theorem isWrapper_of_spells_leaf
    {kind : NodeKind} {start : Nat} (h : (leaf kind).Spells tokens start) :
    kind.isWrapper = false := by
  obtain ⟨k, -, hleaf⟩ := exists_of_spells_leaf h
  have harity := NodeKind.arity_of_ofToken? hleaf
  cases kind with
  | expression | subexpression => cases harity
  | _ => rfl

/-- Every subtree of a phrase is that of a phrase, or a bracket group after an operand. -/
theorem phrased_simplified
    {p : Phrase} {start : Nat} (h : p.Spells tokens start) (hordered : p.Ordered)
    (hsingle : p.Single) : (p.tree start).simplified.Phrased tokens := by
  induction p generalizing start with
  | leaf kind =>
      exact phrased_of_node h hordered hsingle rfl (isWrapper_of_spells_leaf h) (by simp)
  | group b parts ih =>
      have hparts := phrased_of_mem_partTrees (fun p hp index hspells =>
        ih p hp hspells (allOrdered_iff.mp hordered p hp) (allSingle_iff.mp hsingle.2 p hp)) h
      cases b with
      | paren =>
          -- The node of the parentheses is dropped, so the tree is that of the part.
          obtain ⟨p, rfl⟩ := List.length_eq_one_iff.mp (hsingle.1 rfl)
          rw [← Tree.simplified_bare, bare_tree_parens]
          exact hparts _ List.mem_cons_self
      | square | brace => exact phrased_of_node h hordered hsingle rfl rfl hparts
  | before op operand ih =>
      refine phrased_of_node h hordered hsingle rfl rfl ?_
      rw [List.forall_mem_singleton]
      exact ih h.2 hordered.2 hsingle
  | after operand op ih =>
      refine phrased_of_node h hordered hsingle rfl rfl ?_
      rw [List.forall_mem_singleton]
      exact ih h.1 hordered.2 hsingle
  | applied callee b parts ihCallee ihParts =>
      obtain ⟨hcallee, hgroup⟩ := spells_applied_iff.mp h
      have hparts := phrased_of_mem_partTrees (fun p hp index hspells =>
        ihParts p hp hspells (allOrdered_iff.mp hordered.2.2 p hp)
          (allSingle_iff.mp hsingle.2 p hp)) hgroup
      refine phrased_of_node h hordered hsingle rfl rfl ?_
      rw [List.forall_mem_cons, List.forall_mem_singleton]
      refine ⟨ihCallee hcallee hordered.2.1 hsingle.1, ?_⟩
      rw [Tree.simplified_node, Tree.collapsed_of_not_isWrapper (by cases b <;> rfl)]
      refine Tree.phrased_node (.inl (by cases b <;> rfl)) ?_
      simpa using hparts
  | between left op right ihLeft ihRight =>
      have ⟨_, _, _, hleft, hright⟩ := hordered
      refine phrased_of_node h hordered hsingle rfl rfl ?_
      rw [List.forall_mem_cons, List.forall_mem_singleton]
      exact ⟨ihLeft h.1 hleft hsingle.1, ihRight h.2.2 hright hsingle.2⟩

end Phrase

end ExprFront
