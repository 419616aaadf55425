import ExprFront.Arena.Printer
import ExprFront.Proofs.Session.Checked
import ExprFront.Proofs.Tree.Decoded

/-!
# Delivered trees read back from their text

Whatever a session delivers over the tokens of a text, the leaves of the tree are
tokens of that text: the trees of accepted phrases have such leaves, and neither
the nodes of statements and programs nor the collapsing of wrappers adds others.
So two texts of delivered trees are the same only if the trees are, up to ranges.
-/

namespace ExprFront

open Grouping

namespace Session

variable {s s' after after' : Session} {root root' : NodeId} {range : TokenRange}

/-- The node is the root of an expression or of a program that the session reads. -/
inductive Builds (s : Session) (root : NodeId) (after : Session) : Prop
  | expression {range : TokenRange} (h : s.expression range = (.ok root, after))
  | program {range : TokenRange} {statements : List Statement}
      (hsplit : Statement.split s.tokens range = .ok statements)
      (h : s.program range statements = (.ok root, after))

theorem lexed_finish
    {t : Tree} (htokens : AllLexed s.tokens) (h : s.content range = .ok t) :
    (s.config.finish (.node .expression range [t])).Lexed s.tokens := by
  obtain ⟨p, hp, rfl⟩ := exists_accepted_of_content h
  have hnode : (Tree.node .expression range [(p.tree range.start).bare]).Lexed s.tokens := by
    refine .node rfl ?_
    rw [List.forall_mem_singleton]
    exact (Phrase.lexed_tree htokens hp.covers.spells).bare
  unfold Config.finish
  split
  · exact hnode.simplified
  · exact hnode

/-- Over the tokens of a text, what is delivered has tokens as leaves. -/
theorem Builds.exists_lexed
    (htokens : AllLexed s.tokens) (h : s.Builds root after) :
    ∃ t, after.arena.tree? root = some t ∧ t.Lexed s.tokens := by
  cases h with
  | expression h =>
      obtain ⟨t, hcontent⟩ := exists_content_of_expression h
      exact ⟨_, (expression_delivers hcontent).tree?_eq h, lexed_finish htokens hcontent⟩
  | @program range statements hsplit h =>
      obtain ⟨rfl, last, qs, hlast, hqs⟩ :=
        (s.drafts_nil range).run_contents (Statement.inOrder_of_splitFrom hsplit) h
      refine ⟨_, hlast.bears.tree?_eq hlast.nodup, ?_⟩
      rw [Plot.tree]
      refine .node rfl (List.forall_mem_map.mpr fun q hq => ?_)
      rw [List.nil_append] at hq
      obtain ⟨statement, -, t, hcontent, htree⟩ := exists_mem_of_forall₂ (.flip hqs) hq
      rw [htree]
      exact lexed_finish htokens hcontent

/-- Two delivered trees with the same text have the same shape, the same kinds of nodes and the
same literals. -/
theorem exists_matches_of_sexpr_eq
    {source source' : String} (hlex : lex source = .ok s.tokens)
    (hlex' : lex source' = .ok s'.tokens) (h : s.Builds root after) (h' : s'.Builds root' after')
    (htext : after.arena.sexpr s.tokens root = after'.arena.sexpr s'.tokens root') :
    ∃ t t', after.arena.tree? root = some t ∧ after'.arena.tree? root' = some t' ∧
      t.Matches s.tokens s'.tokens t' := by
  obtain ⟨t, htree, ht⟩ := h.exists_lexed fun _ => isLexed_of_lex hlex
  obtain ⟨t', htree', ht'⟩ := h'.exists_lexed fun _ => isLexed_of_lex hlex'
  rw [Arena.sexpr_eq_of_tree? _ _ _ _ htree, Arena.sexpr_eq_of_tree? _ _ _ _ htree'] at htext
  exact ⟨t, t', htree, htree', ht.matches_of_sexpr_eq ht' htext⟩

/-! ## A call written in two ways -/

/-- The tokens of a call with a string that holds a parenthesis and a comma. -/
def sampleTight : Session := start ((lex "f('), y')").toOption.getD #[]) .standard

/-- The same with the callee in parentheses and with blanks; calls are not grouped here. -/
def sampleLoose : Session :=
  start ((lex "(f) ( '), y' )").toOption.getD #[]) { normalization := .never }

theorem sexpr_eq_of_expression
    (text : String) (h : s.expression range = (.ok root, after))
    (htext : (s.expression range).1.toOption.map
      ((s.expression range).2.arena.sexpr s.tokens) = some text) :
    after.arena.sexpr s.tokens root = text := by
  rw [h] at htext
  exact Option.some.inj htext

/-- The call has the same text both ways, so that the trees agree. -/
theorem exists_matches_of_sexpr_eq_sample :
    ∃ root after root' after', sampleTight.Builds root after ∧ sampleLoose.Builds root' after' ∧
      after.arena.sexpr sampleTight.tokens root = after'.arena.sexpr sampleLoose.tokens root' ∧
      ∃ t t', after.arena.tree? root = some t ∧ after'.arena.tree? root' = some t' ∧
        t.Matches sampleTight.tokens sampleLoose.tokens t' := by
  obtain ⟨root, after, h⟩ := exists_eq_of_isOk
    (show (sampleTight.expression ⟨0, 4⟩).1.isOk = true by decide +kernel)
  obtain ⟨root', after', h'⟩ := exists_eq_of_isOk
    (show (sampleLoose.expression ⟨0, 6⟩).1.isOk = true by decide +kernel)
  have htext := sexpr_eq_of_expression "function_call(f, arguments('), y'))" h (by decide +kernel)
  have htext' := sexpr_eq_of_expression "function_call(f, arguments('), y'))" h' (by decide +kernel)
  have hsame := htext.trans htext'.symm
  have hlex : lex "f('), y')" = .ok sampleTight.tokens := by decide +kernel
  have hlex' : lex "(f) ( '), y' )" = .ok sampleLoose.tokens := by decide +kernel
  exact ⟨root, after, root', after', .expression h, .expression h', hsame,
    exists_matches_of_sexpr_eq hlex hlex' (.expression h) (.expression h') hsame⟩

end Session

end ExprFront
