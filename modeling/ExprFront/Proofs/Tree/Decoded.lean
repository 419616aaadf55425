import ExprFront.Proofs.Grouping.Joined
import ExprFront.Proofs.Grouping.Regrouped
import Mathlib.Data.List.Nodup

/-!
# Trees read back from their text

The text of a tree is read like a source text: at every place the lexical
grammar allows one piece at most. What comes first in the text of a leaf is the
literal of its token, and what comes first in that of any other node is a name,
since names of kinds are identifiers. Only after a name there is an opening
parenthesis, so that a leaf is told from a node even where it is an identifier
that is spelled like the name of a kind, and commas and parentheses inside a
string stand inside its piece. Two trees with one text therefore differ in
nothing but ranges.
-/

namespace ExprFront

open Grouping

/-! ## Names of kinds -/

namespace NodeKind

/-- The kinds of nodes that are no leaves. -/
def compounds : List NodeKind :=
  Operation.all.map operation ++
    [arguments, indexArguments, typeArguments, listLiteral, initializerList, subexpression,
      expression, program]

theorem mem_compounds
    {kind : NodeKind} (h : kind.isLeaf = false) : kind ∈ compounds := by
  cases kind with
  | operation op => exact List.mem_append_left _ (List.mem_map_of_mem op.mem_all)
  | identifier | specialObject | number | unsigned | bit | octet | real | string => cases h
  | _ => exact List.mem_append_right _ (by decide)

theorem nodup_map_name_compounds : (compounds.map name).Nodup := by
  decide +kernel

/-- Kinds that are no leaves are told apart by their names. -/
theorem eq_of_name_eq
    {kind other : NodeKind} (hkind : kind.isLeaf = false) (hother : other.isLeaf = false)
    (hname : kind.name = other.name) : kind = other :=
  List.inj_on_of_nodup_map nodup_map_name_compounds (mem_compounds hkind) (mem_compounds hother)
    hname

theorem isIdentifier_name
    {kind : NodeKind} (h : kind.isLeaf = false) :
    ∃ first more, kind.name.toList = first :: more ∧ Lexeme.isNameStart first = true ∧
      ∀ c ∈ more, Lexeme.isNameChar c = true := by
  -- The test is run along the name, since membership alone would let it range over all characters.
  have hall : ∀ kind ∈ compounds, kind.name.toList.head?.any Lexeme.isNameStart = true ∧
      kind.name.toList.tail.all Lexeme.isNameChar = true := by
    decide +kernel
  obtain ⟨hhead, htail⟩ := hall kind (mem_compounds h)
  cases hname : kind.name.toList with
  | nil => simp [hname] at hhead
  | cons first more =>
      rw [hname] at hhead htail
      exact ⟨first, more, rfl, hhead, List.all_eq_true.mp htail⟩

/-- Before a parenthesis, the name of a kind is an identifier. -/
theorem isPiece_name
    {kind : NodeKind} (h : kind.isLeaf = false) (rest : List Char) :
    IsPiece .identifier kind.name.toList ('(' :: rest) := by
  obtain ⟨first, more, hname, hfirst, hmore⟩ := isIdentifier_name h
  rw [hname]
  exact .identifier hfirst hmore (endsOperand_mark (p := .lparen) (by decide) rest).name

end NodeKind

namespace Tree

variable {tokens others : Array Token} {t u : Tree} {ts us : List Tree} {rest rest' : List Char}

/-! ## Trees over the tokens of a text -/

/-- Every leaf is a token of some text, which gives the leaf its kind, and leaves alone are of the
kinds of leaves. -/
inductive Lexed (tokens : Array Token) : Tree → Prop
  | leaf {kind : NodeKind} {index : Nat} {token : Token} (htoken : tokens[index]? = some token)
      (hlexed : token.IsLexed) (hkind : NodeKind.ofToken? token.kind = some kind) :
      Lexed tokens (.leaf kind ⟨index, index + 1⟩)
  | node {kind : NodeKind} {range : TokenRange} {ts : List Tree} (hkind : kind.isLeaf = false)
      (hts : ∀ t ∈ ts, Lexed tokens t) : Lexed tokens (.node kind range ts)

/-- Dropping the node of parentheses leaves the leaves as they are. -/
theorem Lexed.bare
    (h : t.Lexed tokens) : t.bare.Lexed tokens := by
  unfold Tree.bare
  split
  · cases h with
    | node _ hts => exact hts _ (List.mem_singleton_self _)
  · exact h

theorem Lexed.simplified
    (h : t.Lexed tokens) : t.simplified.Lexed tokens := by
  induction h with
  | leaf htoken hlexed hkind =>
      rw [Tree.leaf, simplified_node, List.map_nil, collapsed_of_length_ne _ _ (by simp)]
      exact .leaf htoken hlexed hkind
  | @node kind range ts hkind _ ih =>
      have hnode : (Tree.node kind range (ts.map Tree.simplified)).Lexed tokens :=
        .node hkind (List.forall_mem_map.mpr ih)
      rw [simplified_node]
      unfold collapsed
      split
      · rename_i t hts
        rw [hts] at hnode
        cases hnode with
        | node _ hts => exact hts _ (List.mem_singleton_self _)
      · exact hnode

/-- The trees have the same shape, the same kinds of nodes, and the same literals at their
leaves. -/
inductive Matches (tokens others : Array Token) : Tree → Tree → Prop
  | node {kind : NodeKind} {range range' : TokenRange} {ts us : List Tree}
      (hliteral : kind.isLeaf = true → literalsText tokens range = literalsText others range')
      (hchildren : List.Forall₂ (Matches tokens others) ts us) :
      Matches tokens others (.node kind range ts) (.node kind range' us)

/-! ## Texts of trees -/

/-- What follows the text of a child: the later children, each after a comma, the closing
parenthesis, and the rest. -/
def laterText (rest : List Char) : List String → List Char
  | [] => ')' :: rest
  | text :: texts => ',' :: ' ' :: (text.toList ++ laterText rest texts)

/-- What follows an opening parenthesis. -/
def childrenText (rest : List Char) : List String → List Char
  | [] => ')' :: rest
  | text :: texts => text.toList ++ laterText rest texts

theorem toList_intercalate_append
    (texts : List String) (rest : List Char) :
    (", ".intercalate texts).toList ++ ')' :: rest = childrenText rest texts := by
  cases texts with
  | nil => rfl
  | cons text texts =>
      rw [childrenText, String.toList_intercalate, List.map_cons]
      induction texts generalizing text with
      | nil => simp [laterText, List.intercalate]
      | cons next texts ih =>
          rw [List.map_cons, List.intercalate_cons_cons, laterText, ← ih]
          simp

theorem toList_sexpr_node
    {kind : NodeKind} (h : kind.isLeaf = false) (range : TokenRange) (ts : List Tree)
    (rest : List Char) :
    ((Tree.node kind range ts).sexpr tokens).toList ++ rest =
      kind.name.toList ++ '(' :: childrenText rest (ts.map (sexpr tokens)) := by
  rw [sexpr, if_neg (by simp [h]), sexprAll_eq_map, ← toList_intercalate_append]
  simp

theorem sexpr_leaf
    {kind : NodeKind} {index : Nat} {token : Token} (htoken : tokens[index]? = some token)
    (hkind : NodeKind.ofToken? token.kind = some kind) :
    (Tree.leaf kind ⟨index, index + 1⟩).sexpr tokens = token.literal := by
  rw [Tree.leaf, sexpr, if_pos (NodeKind.isLeaf_of_ofToken? hkind), literalsText_of_getElem? htoken]

/-- A tree may end before the text, which is empty or starts with a comma or a closing
parenthesis. -/
def Delimits (rest : List Char) : Prop :=
  rest = [] ∨ ∃ p more, (p = Punctuation.comma ∨ p = .rparen) ∧ rest = p.spelling.toList ++ more

theorem delimits_laterText
    (rest : List Char) (texts : List String) : Delimits (laterText rest texts) := by
  cases texts with
  | nil => exact .inr ⟨.rparen, rest, .inr rfl, rfl⟩
  | cons => exact .inr ⟨.comma, _, .inl rfl, rfl⟩

theorem Delimits.endsOperand
    (h : Delimits rest) : EndsOperand rest := by
  rcases h with rfl | ⟨p, more, hp, rfl⟩
  · exact ⟨by simp [EndsBefore], by simp [PointFree]⟩
  · exact endsOperand_mark (by rcases hp with rfl | rfl <;> decide) more

theorem Delimits.ne_paren
    (h : Delimits rest) (more : List Char) : rest ≠ '(' :: more := by
  rcases h with rfl | ⟨p, tail, rfl | rfl, rfl⟩
  · exact nofun
  all_goals exact fun heq => absurd (List.cons.inj heq).1 (by decide)

/-! ## Reading back -/

/-- The literal of a leaf is a piece. -/
theorem isPiece_leaf
    {kind : NodeKind} {token : Token} (hlexed : token.IsLexed)
    (hkind : NodeKind.ofToken? token.kind = some kind) (hrest : Delimits rest) :
    IsPiece token.kind token.literal.toList rest := by
  obtain ⟨before, hpiece⟩ := hlexed
  exact hpiece.operand_before (NodeKind.isOperand_of_ofToken? hkind) hrest.endsOperand.name
    fun _ => hrest.endsOperand.point

/-- The text of a tree starts with a character that starts an operand. -/
theorem Lexed.exists_cons
    (h : t.Lexed tokens) :
    ∃ c more, (t.sexpr tokens).toList = c :: more ∧ StartsOperand c := by
  cases h with
  | leaf htoken hlexed hkind =>
      obtain ⟨before, hpiece⟩ := hlexed
      rw [sexpr_leaf htoken hkind]
      exact hpiece.exists_cons_of_operand (NodeKind.isOperand_of_ofToken? hkind)
  | @node kind range ts hkind _ =>
      obtain ⟨c, more, hname, hc⟩ := (NodeKind.isPiece_name hkind []).exists_cons_of_operand rfl
      have htext : ((Tree.node kind range ts).sexpr tokens).toList ++ [] = _ :=
        toList_sexpr_node hkind range ts []
      rw [List.append_nil, hname] at htext
      exact ⟨c, _, htext, hc⟩

theorem Lexed.append_ne_paren
    (h : t.Lexed tokens) (rest more : List Char) :
    (t.sexpr tokens).toList ++ rest ≠ ')' :: more := by
  obtain ⟨c, tail, htext, hc⟩ := h.exists_cons
  rw [htext]
  intro heq
  rw [(List.cons.inj heq).1] at hc
  have hnot : Lexeme.isNameChar ')' = false := by decide
  rcases hc with hname | hquote | hsign
  · rw [hnot] at hname
    cases hname
  · exact absurd hquote (by decide)
  · exact absurd hsign (by decide)

/-- The text of a tree of which no more is known tells the tree, and where its text ends. -/
def Tells (tokens others : Array Token) (t : Tree) : Prop :=
  ∀ u rest rest', u.Lexed others → Delimits rest → Delimits rest' →
    (t.sexpr tokens).toList ++ rest = (u.sexpr others).toList ++ rest' →
      t.Matches tokens others u ∧ rest = rest'

theorem forall₂_of_laterText_eq
    (hts : ∀ t ∈ ts, t.Tells tokens others) (hus : ∀ u ∈ us, u.Lexed others)
    (h : laterText rest (ts.map (sexpr tokens)) = laterText rest' (us.map (sexpr others))) :
    List.Forall₂ (Matches tokens others) ts us ∧ rest = rest' := by
  induction ts generalizing us with
  | nil =>
      cases us with
      | nil => exact ⟨.nil, (List.cons.inj h).2⟩
      | cons u us => exact absurd (List.cons.inj h).1 (by decide)
  | cons t ts ih =>
      cases us with
      | nil => exact absurd (List.cons.inj h).1 (by decide)
      | cons u us =>
          have htail := (List.cons.inj (List.cons.inj h).2).2
          obtain ⟨hmatches, hlater⟩ := hts t List.mem_cons_self u _ _ (hus u List.mem_cons_self)
            (delimits_laterText _ _) (delimits_laterText _ _) htail
          obtain ⟨hall, hrest⟩ := ih (fun t ht => hts t (List.mem_cons_of_mem _ ht))
            (fun u hu => hus u (List.mem_cons_of_mem _ hu)) hlater
          exact ⟨.cons hmatches hall, hrest⟩

theorem forall₂_of_childrenText_eq
    (hts : ∀ t ∈ ts, t.Tells tokens others) (hlexed : ∀ t ∈ ts, t.Lexed tokens)
    (hus : ∀ u ∈ us, u.Lexed others)
    (h : childrenText rest (ts.map (sexpr tokens)) = childrenText rest' (us.map (sexpr others))) :
    List.Forall₂ (Matches tokens others) ts us ∧ rest = rest' := by
  cases ts with
  | nil =>
      cases us with
      | nil => exact ⟨.nil, (List.cons.inj h).2⟩
      | cons u us => exact absurd h.symm ((hus u List.mem_cons_self).append_ne_paren _ _)
  | cons t ts =>
      cases us with
      | nil => exact absurd h ((hlexed t List.mem_cons_self).append_ne_paren _ _)
      | cons u us =>
          obtain ⟨hmatches, hlater⟩ := hts t List.mem_cons_self u _ _ (hus u List.mem_cons_self)
            (delimits_laterText _ _) (delimits_laterText _ _) h
          obtain ⟨hall, hrest⟩ := forall₂_of_laterText_eq
            (fun t ht => hts t (List.mem_cons_of_mem _ ht))
            (fun u hu => hus u (List.mem_cons_of_mem _ hu)) hlater
          exact ⟨.cons hmatches hall, hrest⟩

/-- The text of a leaf is no name before a parenthesis. -/
theorem leaf_append_ne
    {kind : NodeKind} {token : Token} (hlexed : token.IsLexed)
    (hkind : NodeKind.ofToken? token.kind = some kind) (hrest : Delimits rest)
    {other : NodeKind} (hother : other.isLeaf = false) (more : List Char) :
    token.literal.toList ++ rest ≠ other.name.toList ++ '(' :: more := by
  intro heq
  have hsame := (isPiece_leaf hlexed hkind hrest).unique (NodeKind.isPiece_name hother more) heq
  exact hrest.ne_paren more hsame.2.2

/-- The text of a tree tells the tree. -/
theorem Lexed.tells
    (h : t.Lexed tokens) : t.Tells tokens others := by
  induction h with
  | @leaf kind index token htoken hlexed hkind =>
      intro u rest rest' hu hrest hrest' heq
      rw [sexpr_leaf htoken hkind] at heq
      cases hu with
      | @leaf kind' index' token' htoken' hlexed' hkind' =>
          rw [sexpr_leaf htoken' hkind'] at heq
          obtain ⟨hsame, hliteral, hrests⟩ :=
            (isPiece_leaf hlexed hkind hrest).unique (isPiece_leaf hlexed' hkind' hrest') heq
          rw [hsame, hkind', Option.some.injEq] at hkind
          subst hkind
          refine ⟨.node (fun _ => ?_) .nil, hrests⟩
          rw [literalsText_of_getElem? htoken, literalsText_of_getElem? htoken']
          exact String.toList_inj.mp hliteral
      | node hkind' _ =>
          rw [toList_sexpr_node hkind'] at heq
          exact absurd heq (leaf_append_ne hlexed hkind hrest hkind' _)
  | @node kind range ts hkind hts ih =>
      intro u rest rest' hu hrest hrest' heq
      rw [toList_sexpr_node hkind] at heq
      cases hu with
      | leaf htoken' hlexed' hkind' =>
          rw [sexpr_leaf htoken' hkind'] at heq
          exact absurd heq.symm (leaf_append_ne hlexed' hkind' hrest' hkind _)
      | node hkind' hus =>
          rw [toList_sexpr_node hkind'] at heq
          obtain ⟨-, hname, htail⟩ :=
            (NodeKind.isPiece_name hkind _).unique (NodeKind.isPiece_name hkind' _) heq
          have hsame := NodeKind.eq_of_name_eq hkind hkind' (String.toList_inj.mp hname)
          subst hsame
          obtain ⟨hall, hrests⟩ := forall₂_of_childrenText_eq ih hts hus (List.cons.inj htail).2
          exact ⟨.node (fun hleaf => by simp [hkind] at hleaf) hall, hrests⟩

/-- Trees with the same text differ in ranges only. -/
theorem Lexed.matches_of_sexpr_eq
    (ht : t.Lexed tokens) (hu : u.Lexed others) (h : t.sexpr tokens = u.sexpr others) :
    t.Matches tokens others u :=
  (ht.tells u [] [] hu (.inl rfl) (.inl rfl) (by rw [h])).1

end Tree

/-! ## Trees of phrases -/

namespace Phrase

variable {tokens : Array Token}

theorem lexed_partTrees
    {parts : List Phrase}
    (hparts : ∀ p ∈ parts, ∀ start, p.Spells tokens start → (p.tree start).Lexed tokens)
    {start : Nat} (h : EachSpells tokens parts start) :
    ∀ t ∈ partTrees parts start, t.Lexed tokens := by
  induction parts generalizing start with
  | nil => simp [partTrees]
  | cons p ps ih =>
      obtain ⟨hp, hps⟩ := h
      rw [partTrees, List.forall_mem_cons]
      exact ⟨(hparts p List.mem_cons_self start hp).bare,
        ih (fun q hq => hparts q (List.mem_cons_of_mem p hq)) hps⟩

/-- The leaves of the tree of a spelled phrase are tokens. -/
theorem lexed_tree
    (htokens : AllLexed tokens) {p : Phrase} {start : Nat} (h : p.Spells tokens start) :
    (p.tree start).Lexed tokens := by
  induction p generalizing start with
  | leaf kind =>
      obtain ⟨k, hk, hleaf⟩ := exists_of_spells_leaf h
      unfold kindAt at hk
      obtain ⟨token, htoken, rfl⟩ := Option.map_eq_some_iff.mp hk
      refine .leaf htoken (htokens token (Array.mem_of_getElem? htoken) ?_) hleaf
      rintro heof
      simp [heof, NodeKind.ofToken?] at hleaf
  | group b parts ih =>
      exact .node b.isLeaf_nodeKind
        (lexed_partTrees (fun p hp start hs => ih p hp hs) (SpellsParts.eachSpells h.2.1))
  | before op operand ih =>
      exact .node (NodeKind.isLeaf_operation op) (by simpa using ih h.2)
  | after operand op ih =>
      exact .node (NodeKind.isLeaf_operation op) (by simpa using ih h.1)
  | applied callee b parts ihCallee ihParts =>
      obtain ⟨hcallee, hgroup⟩ := spells_applied_iff.mp h
      have harguments := lexed_partTrees (fun p hp start hs => ihParts p hp hs)
        (SpellsParts.eachSpells hgroup.2.1)
      refine .node (NodeKind.isLeaf_operation _) ?_
      rw [List.forall_mem_cons, List.forall_mem_singleton]
      exact ⟨ihCallee hcallee, .node (Reading.isLeaf_groupRole b) harguments⟩
  | between left op right ihLeft ihRight =>
      refine .node (NodeKind.isLeaf_operation op) ?_
      rw [List.forall_mem_cons, List.forall_mem_singleton]
      exact ⟨ihLeft h.1, ihRight h.2.2⟩

end Phrase

end ExprFront
