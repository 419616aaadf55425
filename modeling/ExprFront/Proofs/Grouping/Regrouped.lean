import ExprFront.Proofs.Grouping.Wrapped
import ExprFront.Proofs.Phrase.Order
import ExprFront.Proofs.Tree.Shape

/-!
# Grouped tokens as an expression of their own

Taken as they are, grouped tokens spell the wrapped phrase, in which every
operand is a single token or a bracket group. Such operands leave nothing to
order, so a wrapped phrase obeys the rules. Its tree has a node for each pair of
parentheses; once wrappers are collapsed, it is written as the tree of the
phrase is.
-/

namespace ExprFront

open Grouping

namespace Phrase

/-! ## Wrapped phrases obey the rules -/

/-- A wrapped phrase is a token or a bracket group. -/
theorem wrapped_cases
    (p : Phrase) : (∃ kind, p.wrapped = leaf kind) ∨ ∃ b parts, p.wrapped = group b parts := by
  cases p with
  | leaf kind => exact .inl ⟨kind, rfl⟩
  | group | before | after | applied | between => exact .inr ⟨_, _, rfl⟩

@[simp] theorem joint?_wrapped
    (p : Phrase) : p.wrapped.joint? = none := by
  rcases p.wrapped_cases with ⟨kind, h⟩ | ⟨b, parts, h⟩ <;> rw [h] <;> rfl

@[simp] theorem isAfter_wrapped
    (p : Phrase) : p.wrapped.isAfter = false := by
  rcases p.wrapped_cases with ⟨kind, h⟩ | ⟨b, parts, h⟩ <;> rw [h] <;> rfl

@[simp] theorem endsInBefore_wrapped
    (p : Phrase) : p.wrapped.endsInBefore = false := by
  rcases p.wrapped_cases with ⟨kind, h⟩ | ⟨b, parts, h⟩ <;> rw [h] <;> rfl

theorem allOrdered_wrappedAll
    {parts : List Phrase} (hparts : ∀ p ∈ parts, p.wrapped.Ordered) :
    AllOrdered (wrappedAll parts) := by
  rw [allOrdered_iff, wrappedAll_eq_map, List.forall_mem_map]
  exact hparts

/-- A wrapped phrase obeys the rules on operands. -/
theorem ordered_wrapped
    {p : Phrase} (h : p.Ordered) : p.wrapped.Ordered := by
  induction p with
  | leaf => trivial
  | group b parts ih =>
      exact allOrdered_wrappedAll fun p hp => ih p hp (allOrdered_iff.mp h p hp)
  | before op operand ih =>
      simp [wrapped, Ordered, AllOrdered, FollowsBefore, ih h.2]
  | after operand op ih =>
      simp [wrapped, Ordered, AllOrdered, PrecedesAfter, ih h.2]
  | applied callee b parts ihCallee ihParts =>
      have hparts := allOrdered_wrappedAll fun p hp =>
        ihParts p hp (allOrdered_iff.mp h.2.2 p hp)
      simp [wrapped, Ordered, AllOrdered, PrecedesAfter, ihCallee h.2.1, hparts]
  | between left op right ihLeft ihRight =>
      obtain ⟨hfixity, -, -, hleft, hright⟩ := h
      simp [wrapped, Ordered, AllOrdered, LeftOf, RightOf, hfixity, ihLeft hleft, ihRight hright]

theorem allSingle_wrappedAll
    {parts : List Phrase} (hparts : ∀ p ∈ parts, p.wrapped.Single) :
    AllSingle (wrappedAll parts) := by
  rw [allSingle_iff, wrappedAll_eq_map, List.forall_mem_map]
  exact hparts

/-- In a wrapped phrase, grouping parentheses hold one part each if they did before. -/
theorem single_wrapped
    {p : Phrase} (h : p.Single) : p.wrapped.Single := by
  induction p with
  | leaf => trivial
  | group b parts ih =>
      refine ⟨?_, allSingle_wrappedAll fun p hp => ih p hp (allSingle_iff.mp h.2 p hp)⟩
      rw [wrappedAll_eq_map, List.length_map]
      exact h.1
  | before op operand ih => simp [wrapped, Single, AllSingle, ih h]
  | after operand op ih => simp [wrapped, Single, AllSingle, ih h]
  | applied callee b parts ihCallee ihParts =>
      have hparts := allSingle_wrappedAll fun p hp =>
        ihParts p hp (allSingle_iff.mp h.2 p hp)
      simp [wrapped, Single, AllSingle, ihCallee h.1, hparts]
  | between left op right ihLeft ihRight =>
      simp [wrapped, Single, AllSingle, ihLeft h.1, ihRight h.2]

end Phrase

/-! ## Texts of collapsed trees -/

namespace Tree

theorem sexprAll_eq_map
    (tokens : Array Token) (ts : List Tree) : sexprAll tokens ts = ts.map (sexpr tokens) := by
  induction ts with
  | nil => rfl
  | cons t ts ih => rw [sexprAll, ih, List.map_cons]

/-- The text of a collapsed node is made of the texts of its children. -/
theorem sexpr_collapsed_congr
    {tokens others : Array Token} {kind : NodeKind} (hkind : kind.isLeaf = false)
    {range range' : TokenRange} {ts us : List Tree}
    (h : ts.map (sexpr tokens) = us.map (sexpr others)) :
    (collapsed kind range ts).sexpr tokens = (collapsed kind range' us).sexpr others := by
  have hlength : ts.length = us.length := by
    simpa using congrArg List.length h
  by_cases hone : kind.isWrapper = true ∧ ts.length = 1
  · obtain ⟨t, rfl⟩ := List.length_eq_one_iff.mp hone.2
    obtain ⟨u, rfl⟩ := List.length_eq_one_iff.mp (hlength.symm.trans hone.2)
    rw [collapsed_wrapper hone.1, collapsed_wrapper hone.1]
    simpa using h
  · have hnode : ∀ (r : TokenRange) (vs : List Tree), vs.length = ts.length →
        collapsed kind r vs = node kind r vs := by
      intro r vs hvs
      by_cases hwrapper : kind.isWrapper = true
      · exact collapsed_of_length_ne kind r fun heq => hone ⟨hwrapper, hvs.symm.trans heq⟩
      · exact collapsed_of_not_isWrapper (Bool.eq_false_iff.mpr hwrapper) r vs
    rw [hnode range ts rfl, hnode range' us hlength.symm, sexpr, sexpr, hkind, sexprAll_eq_map,
      sexprAll_eq_map, h, if_neg Bool.false_ne_true, if_neg Bool.false_ne_true]

/-- The tree as it is written once wrappers are collapsed. -/
def plainText (tokens : Array Token) (t : Tree) : String := t.simplified.sexpr tokens

theorem plainText_bare
    (tokens : Array Token) (t : Tree) : t.bare.plainText tokens = t.plainText tokens := by
  rw [plainText, simplified_bare, plainText]

theorem plainText_node_congr
    {tokens others : Array Token} {kind : NodeKind} (hkind : kind.isLeaf = false)
    {range range' : TokenRange} {ts us : List Tree}
    (h : ts.map (plainText tokens) = us.map (plainText others)) :
    (node kind range ts).plainText tokens = (node kind range' us).plainText others := by
  rw [plainText, plainText, simplified_node, simplified_node]
  apply sexpr_collapsed_congr hkind
  rw [List.map_map, List.map_map]
  exact h

theorem plainText_wrapper
    {tokens : Array Token} {kind : NodeKind} (hkind : kind.isWrapper = true)
    (range : TokenRange) (t : Tree) :
    (node kind range [t]).plainText tokens = t.plainText tokens := by
  rw [plainText, simplified_node, List.map_singleton, collapsed_wrapper hkind, plainText]

end Tree

theorem NodeKind.isLeaf_of_ofToken?
    {k : TokenKind} {kind : NodeKind} (h : ofToken? k = some kind) : kind.isLeaf = true := by
  simp [isLeaf, arity_of_ofToken? h]

theorem NodeKind.isLeaf_operation
    (op : Operation) : (NodeKind.operation op).isLeaf = false := by
  cases h : op.operands <;> simp [isLeaf, arity, h]

theorem Bracket.isLeaf_nodeKind
    (b : Bracket) : b.nodeKind.isLeaf = false := by
  cases b <;> rfl

theorem Reading.isLeaf_groupRole
    (b : Bracket) : (groupRole b).2.1.isLeaf = false := by
  cases b <;> rfl

/-! ## Texts of wrapped phrases -/

theorem literalsText_of_getElem?
    {tokens : Array Token} {index : Nat} {t : Token} (h : tokens[index]? = some t) :
    literalsText tokens ⟨index, index + 1⟩ = t.literal := by
  have hextract : (tokens.extract index (index + 1)).toList = [t] := by
    rw [Array.toList_extract, List.extract_eq_take_drop, Nat.add_sub_cancel_left,
      List.take_one, List.head?_drop, Array.getElem?_toList, h]
    rfl
  rw [literalsText, hextract]
  simp [String.join]

/-- The copy of a token has its literal. -/
theorem Grouped.literalsText_of_has_copy
    {tokens : Array Token} {g : Grouped} {start index : Nat} (hindex : index < tokens.size)
    (h : g.Has start (copy tokens index)) :
    literalsText g.tokens ⟨start, start + 1⟩ = literalsText tokens ⟨index, index + 1⟩ := by
  have ht : tokens[index]? = some tokens[index] := Array.getElem?_eq_getElem hindex
  rw [copy_of_getElem? ht, has_singleton_iff] at h
  have hg : g.tokens[start]? = some tokens[index] := by
    simp [Grouped.tokens, h]
  rw [literalsText_of_getElem? hg, literalsText_of_getElem? ht]

namespace Phrase

variable {tokens : Array Token} {g : Grouped}

/-- Parentheses around a phrase do not show once wrappers are collapsed. -/
theorem plainText_parens
    (tokens : Array Token) (p : Phrase) (start : Nat) :
    ((group .paren [p]).tree start).plainText tokens = (p.tree (start + 1)).plainText tokens := by
  rw [← Tree.plainText_bare, bare_tree_parens, Tree.plainText_bare]

theorem plainText_wrappedAll
    {parts : List Phrase}
    (hparts : ∀ p ∈ parts, ∀ source start, p.Spells tokens source →
      g.Has start (p.grouped tokens source) →
      (p.wrapped.tree start).plainText g.tokens = (p.tree source).plainText tokens)
    {source start : Nat} (h : EachHas tokens g parts source start) :
    (partTrees (wrappedAll parts) start).map (Tree.plainText g.tokens) =
      (partTrees parts source).map (Tree.plainText tokens) := by
  induction parts generalizing source start with
  | nil => rfl
  | cons p ps ih =>
      obtain ⟨hp, hhead, htail⟩ := h
      rw [wrappedAll, partTrees, partTrees, List.map_cons, List.map_cons, Tree.plainText_bare,
        Tree.plainText_bare, hparts p List.mem_cons_self _ _ hp hhead,
        ih (fun q hq => hparts q (List.mem_cons_of_mem p hq)) htail]

/-- The node of a bracket group, of whatever kind, is written with its parts. -/
theorem plainText_wrapped_group
    {b : Bracket} {parts : List Phrase}
    (hparts : ∀ p ∈ parts, ∀ source start, p.Spells tokens source →
      g.Has start (p.grouped tokens source) →
      (p.wrapped.tree start).plainText g.tokens = (p.tree source).plainText tokens)
    {source start : Nat} (h : (group b parts).Spells tokens source)
    (hhas : g.Has start ((group b parts).grouped tokens source))
    {kind : NodeKind} (hkind : kind.isLeaf = false) (range range' : TokenRange) :
    (Tree.node kind range (partTrees (wrappedAll parts) (start + 1))).plainText g.tokens =
      (Tree.node kind range' (partTrees parts (source + 1))).plainText tokens := by
  have hinner := SpellsParts.eachHas h.2.1 (has_group h hhas).2.1
  exact Tree.plainText_node_congr hkind (plainText_wrappedAll hparts hinner)

/-- The tree of grouped tokens is written as that of the phrase, once wrappers are collapsed. -/
theorem plainText_wrapped
    {p : Phrase} {source start : Nat} (h : p.Spells tokens source)
    (hhas : g.Has start (p.grouped tokens source)) :
    (p.wrapped.tree start).plainText g.tokens = (p.tree source).plainText tokens := by
  induction p generalizing source start with
  | leaf kind =>
      obtain ⟨k, hk, hleaf⟩ := exists_of_spells_leaf h
      have hliteral := Grouped.literalsText_of_has_copy (lt_size_of_kindAt hk) hhas
      have hkind := NodeKind.isLeaf_of_ofToken? hleaf
      simp only [wrapped, tree, Tree.leaf, Tree.plainText, Tree.simplified_node, List.map_nil]
      rw [Tree.collapsed_of_length_ne _ _ (by simp), Tree.collapsed_of_length_ne _ _ (by simp),
        Tree.sexpr, Tree.sexpr, if_pos hkind, if_pos hkind, hliteral]
  | group b parts ih =>
      rw [wrapped, tree, tree]
      exact plainText_wrapped_group (fun p hp source start hs => ih p hp hs) h hhas
        b.isLeaf_nodeKind _ _
  | before op operand ih =>
      obtain ⟨-, -, hrest, -⟩ := has_before h hhas
      rw [wrapped, plainText_parens, tree, tree]
      apply Tree.plainText_node_congr (NodeKind.isLeaf_operation op)
      rw [List.map_singleton, List.map_singleton, ih h.2 hrest]
  | after operand op ih =>
      obtain ⟨-, hrest, -, -⟩ := has_after h hhas
      rw [wrapped, plainText_parens, tree, tree]
      apply Tree.plainText_node_congr (NodeKind.isLeaf_operation op)
      rw [List.map_singleton, List.map_singleton, ih h.1 hrest]
  | applied callee b parts ihCallee ihParts =>
      obtain ⟨hcallee, hgroup⟩ := spells_applied_iff.mp h
      obtain ⟨-, hfirst, hrest, -⟩ := has_applied h hhas
      rw [wrapped, plainText_parens, tree, tree]
      apply Tree.plainText_node_congr (NodeKind.isLeaf_operation _)
      have harguments := plainText_wrapped_group (fun p hp source start hs => ihParts p hp hs)
        hgroup hrest (Reading.isLeaf_groupRole b)
      simp only [List.map_cons, List.map_nil, ihCallee hcallee hfirst]
      exact congrArg (fun text => [(callee.tree source).plainText tokens, text]) (harguments _ _)
  | between left op right ihLeft ihRight =>
      obtain ⟨-, hfirst, -, hrest, -⟩ := has_between h hhas
      rw [wrapped, plainText_parens, tree, tree]
      apply Tree.plainText_node_congr (NodeKind.isLeaf_operation op)
      simp only [List.map_cons, List.map_nil, ihLeft h.1 hfirst, ihRight h.2.2 hrest]

end Phrase

end ExprFront
