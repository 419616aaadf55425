import ExprFront.Program
import ExprFront.Arena.Printer
import ExprFront.Proofs.Grouping.Regrouped
import ExprFront.Proofs.Session.Grammar

/-!
# Grouping twice

The tokens of a grouped expression, taken as tokens of their own, are again an
expression, and so are those that grouping them once more gives. All three are
written alike once wrappers are collapsed: grouping adds nothing that reading
does not find by itself.
-/

namespace ExprFront

/-- Expressions are read as they were written, and collapsed. -/
def Config.plain (limit : Nat) : Config := ⟨limit, .never, true⟩

/-- The expression as nested applications. -/
def ExpressionResult.sexpr (r : ExpressionResult) (tokens : Array Token) : String :=
  r.arena.sexpr tokens r.root

namespace Session

/-- The text of an accepted phrase that was read as it was written. -/
theorem sexpr_of_accepted
    {s : Session} {range : TokenRange} {p : Phrase} {root : NodeId} {after : Session}
    (hnever : s.config.normalization = .never) (hsimplify : s.config.simplify = true)
    (hp : p.Accepted s.tokens s.config.limit range)
    (hanswer : s.expression range = (.ok root, after)) :
    after.arena.sexpr s.tokens root = (p.tree range.start).plainText s.tokens := by
  have hcontent : s.content range = .ok (p.tree range.start).bare :=
    content_of_accepted hp (by simp [normalizes_of_never hnever])
  have htree := (expression_delivers hcontent).tree?_eq hanswer
  rw [Config.finish, if_pos hsimplify] at htree
  rw [Arena.sexpr_eq_of_tree? _ _ _ _ htree, ← Tree.plainText, Tree.plainText_wrapper rfl,
    Tree.plainText_bare]

end Session

/-- An accepted phrase is read from its tokens. -/
theorem ExpressionResult.exists_of_accepted
    {tokens : Array Token} {range : TokenRange} {limit : Nat} {p : Phrase}
    (hp : p.Accepted tokens limit range) :
    ∃ r, ExpressionResult.ofTokens tokens range (.plain limit) = .ok r ∧
      r.sexpr tokens = (p.tree range.start).plainText tokens := by
  have hnever : (Session.start tokens (.plain limit)).normalizes range = false :=
    Session.normalizes_of_never rfl
  have hcontent : (Session.start tokens (.plain limit)).content range =
      .ok (p.tree range.start).bare :=
    Session.content_of_accepted hp (by simp [hnever])
  obtain ⟨q, arena, hanswer, -⟩ := Session.expression_delivers hcontent
  refine ⟨⟨arena, q.root, range.stop⟩, by simp only [ofTokens, hanswer], ?_⟩
  exact Session.sexpr_of_accepted rfl rfl hp hanswer

namespace Phrase

/-- The tokens of a grouped phrase are covered by the wrapped phrase, which is written alike. -/
theorem Covers.wrapped
    {tokens : Array Token} {range : TokenRange} {p : Phrase} (h : p.Covers tokens range)
    {g : Grouped} (hentries : g.entries = (p.grouped tokens range.start).toArray) :
    p.wrapped.Covers g.tokens ⟨0, g.tokens.size⟩ ∧
      (p.wrapped.tree 0).plainText g.tokens = (p.tree range.start).plainText tokens := by
  have hhas : g.Has 0 (p.grouped tokens range.start) := by
    simp [Grouped.Has, hentries]
  have hsize : g.tokens.size = p.wrapped.width := by
    simp [Grouped.tokens, hentries, length_grouped h.spells]
  refine ⟨⟨(sits_of_has h.spells hhas).spells, by rw [hsize, Nat.zero_add]⟩, ?_⟩
  exact plainText_wrapped h.spells hhas

/-- With room for all nesting, a phrase that obeys the rules is grouped. -/
theorem Covers.groupTokens_eq
    {tokens : Array Token} {range : TokenRange} {limit : Nat} {p : Phrase}
    (h : p.Covers tokens range) (hordered : p.Ordered) (hsingle : p.Single)
    (hlimit : range.length + 1 ≤ limit) :
    groupTokens tokens range limit = .ok ⟨(p.grouped tokens range.start).toArray⟩ := by
  have hdepth : p.depth < limit := by
    have hwidth := p.depth_lt_width
    have hstop := h.stop_eq
    unfold TokenRange.length at hlimit
    omega
  exact (Grouping.groupTokens_of_covers h hordered hsingle).1 hdepth

/-- With room for all nesting, a phrase that obeys the rules is grouped; the grouped tokens are
covered by a phrase that obeys them too and is written alike. -/
theorem exists_wrapped_of_covers
    {tokens : Array Token} {range : TokenRange} {limit : Nat} {p : Phrase}
    (hcovers : p.Covers tokens range) (hordered : p.Ordered) (hsingle : p.Single)
    (hlimit : range.length + 1 ≤ limit) :
    ∃ g, groupTokens tokens range limit = .ok g ∧
      p.wrapped.Covers g.tokens ⟨0, g.tokens.size⟩ ∧
      (p.wrapped.tree 0).plainText g.tokens = (p.tree range.start).plainText tokens :=
  ⟨_, hcovers.groupTokens_eq hordered hsingle hlimit, hcovers.wrapped rfl⟩

end Phrase

/-- An accepted expression can be grouped, its grouped tokens are accepted and can be grouped
again, and what this gives is accepted as well; all three are written alike. -/
theorem exists_grouped_and_regrouped
    (s : Session) (range : TokenRange) (root : NodeId) (after : Session)
    (hnever : s.config.normalization = .never) (hsimplify : s.config.simplify = true)
    (haccepted : s.expression range = (.ok root, after))
    (limit₁ : Nat) (hlimit₁ : range.length + 1 ≤ limit₁) :
    ∃ once, groupTokens s.tokens range limit₁ = .ok once ∧
      (∀ limit₂, once.tokens.size + 1 ≤ limit₂ →
        ∃ r, ExpressionResult.ofTokens once.tokens ⟨0, once.tokens.size⟩ (.plain limit₂) = .ok r ∧
          r.sexpr once.tokens = after.arena.sexpr s.tokens root) ∧
      ∀ limit₃, once.tokens.size + 1 ≤ limit₃ →
        ∃ twice, groupTokens once.tokens ⟨0, once.tokens.size⟩ limit₃ = .ok twice ∧
          ∀ limit₄, twice.tokens.size + 1 ≤ limit₄ →
            ∃ r, ExpressionResult.ofTokens twice.tokens ⟨0, twice.tokens.size⟩ (.plain limit₄) =
                .ok r ∧
              r.sexpr twice.tokens = after.arena.sexpr s.tokens root := by
  obtain ⟨t, hcontent⟩ := Session.exists_content_of_expression haccepted
  obtain ⟨p, hp, -⟩ := Session.exists_accepted_of_content hcontent
  have htext := Session.sexpr_of_accepted hnever hsimplify hp haccepted
  have hordered := Phrase.ordered_wrapped hp.ordered
  have hsingle := Phrase.single_wrapped hp.single
  obtain ⟨once, hgroup, hcovers, honce⟩ :=
    Phrase.exists_wrapped_of_covers hp.covers hp.ordered hp.single hlimit₁
  refine ⟨once, hgroup, fun limit₂ hlimit₂ => ?_, fun limit₃ hlimit₃ => ?_⟩
  · obtain ⟨r, hr, hsexpr⟩ := ExpressionResult.exists_of_accepted
      (Phrase.accepted_of_length_lt hcovers hordered hsingle hlimit₂)
    exact ⟨r, hr, by rw [hsexpr, htext, honce]⟩
  · obtain ⟨twice, hregroup, hcovers', htwice⟩ :=
      Phrase.exists_wrapped_of_covers hcovers hordered hsingle hlimit₃
    refine ⟨twice, hregroup, fun limit₄ hlimit₄ => ?_⟩
    obtain ⟨r, hr, hsexpr⟩ := ExpressionResult.exists_of_accepted
      (Phrase.accepted_of_length_lt hcovers' (Phrase.ordered_wrapped hordered)
        (Phrase.single_wrapped hsingle) hlimit₄)
    exact ⟨r, hr, by rw [hsexpr, htext, htwice, honce]⟩

/-- A prefix operation on a call, grouped twice, is written as it is read. -/
theorem exists_grouped_and_regrouped_sample :
    ∃ once twice r,
      groupTokens Session.sampleTokens ⟨0, 9⟩ 10 = .ok once ∧
      groupTokens once.tokens ⟨0, once.tokens.size⟩ (once.tokens.size + 1) = .ok twice ∧
      ExpressionResult.ofTokens twice.tokens ⟨0, twice.tokens.size⟩
        (.plain (twice.tokens.size + 1)) = .ok r ∧
      r.sexpr twice.tokens =
        "multiplication(unary_minus(function_call(member_access(f, g), arguments(x))), y)" := by
  obtain ⟨after, haccepted, htext⟩ : ∃ after,
      (Session.start Session.sampleTokens (.plain 10)).expression ⟨0, 9⟩ = (.ok 9, after) ∧
        after.arena.sexpr Session.sampleTokens 9 =
          "multiplication(unary_minus(function_call(member_access(f, g), arguments(x))), y)" := by
    have hroot : ((Session.start Session.sampleTokens (.plain 10)).expression ⟨0, 9⟩).1 =
        .ok 9 := by decide +kernel
    have htext : ((Session.start Session.sampleTokens (.plain 10)).expression
        ⟨0, 9⟩).2.arena.sexpr Session.sampleTokens 9 =
          "multiplication(unary_minus(function_call(member_access(f, g), arguments(x))), y)" := by
      decide +kernel
    generalize (Session.start Session.sampleTokens (.plain 10)).expression ⟨0, 9⟩ = answer
      at hroot htext
    obtain ⟨result, after⟩ := answer
    cases hroot
    exact ⟨after, rfl, htext⟩
  obtain ⟨once, hgroup, -, hagain⟩ := exists_grouped_and_regrouped
    (Session.start Session.sampleTokens (.plain 10)) ⟨0, 9⟩ 9 after rfl rfl haccepted 10
    (by decide)
  obtain ⟨twice, hregroup, hread⟩ := hagain _ (Nat.le_refl _)
  obtain ⟨r, hr, hsexpr⟩ := hread _ (Nat.le_refl _)
  exact ⟨once, twice, r, hgroup, hregroup, hr, hsexpr.trans htext⟩

end ExprFront
