import ExprFront.Proofs.Session.Phrased

/-!
# The two routes of reading

An expression is read as it was written, or grouped first, read from the grouped
tokens, mapped back and copied. The choice makes no difference to the answer:
both routes accept the same ranges and deliver the same tree, as long as
grouping does not nest too deep.
-/

namespace ExprFront

namespace Session

/-- The session with another choice of when expressions are grouped. -/
def under (s : Session) (n : Normalization) : Session :=
  { s with config := { s.config with normalization := n } }

/-- The content of a range does not depend on the route. -/
theorem content_under_eq_ok_iff
    {s : Session} {range : TokenRange}
    (hdeep : ∀ most spot,
      groupTokens s.tokens range s.config.limit ≠ .error (.nestingTooDeep most spot))
    (n : Normalization) (t : Tree) :
    (s.under n).content range = .ok t ↔
      ∃ p : Phrase, p.Accepted s.tokens s.config.limit range ∧
        t = (p.tree range.start).bare := by
  constructor
  · exact exists_accepted_of_content
  · rintro ⟨p, hp, rfl⟩
    exact content_of_accepted hp fun _ => hdeep

/-- Unless grouping nests too deep, an expression is accepted by one route exactly if it is by the
other, and the trees are the same. -/
theorem expression_under_eq
    (s : Session) (range : TokenRange) (m n : Normalization)
    (hdeep : ∀ most spot,
      groupTokens s.tokens range s.config.limit ≠ .error (.nestingTooDeep most spot)) :
    ((s.under m).expression range).1.isOk = ((s.under n).expression range).1.isOk ∧
      ∀ (root root' : NodeId) (after after' : Session),
        (s.under m).expression range = (.ok root, after) →
        (s.under n).expression range = (.ok root', after') →
        ∃ t, after.arena.tree? root = some t ∧ after'.arena.tree? root' = some t := by
  have hsame : ∀ t, (s.under m).content range = .ok t ↔ (s.under n).content range = .ok t :=
    fun t => (content_under_eq_ok_iff hdeep m t).trans (content_under_eq_ok_iff hdeep n t).symm
  constructor
  · rw [isOk_expression, isOk_expression]
    cases hm : (s.under m).content range with
    | ok t => rw [(hsame t).mp hm]
    | error e =>
        cases hn : (s.under n).content range with
        | ok t => rw [(hsame t).mpr hn] at hm; cases hm
        | error e => rfl
  · intro root root' after after' hfirst hsecond
    obtain ⟨t, hm⟩ := exists_content_of_expression hfirst
    have hn := (hsame t).mp hm
    exact ⟨_, (expression_delivers hm).tree?_eq hfirst, (expression_delivers hn).tree?_eq hsecond⟩

/-- Both routes accept a prefix operation on a call, and deliver one tree. -/
theorem expression_under_eq_sample :
    ((start sampleTokens .standard).under .never |>.expression ⟨0, 9⟩).1.isOk = true ∧
    ((start sampleTokens .standard).under .always |>.expression ⟨0, 9⟩).1.isOk = true ∧
    ∀ (root root' : NodeId) (after after' : Session),
      ((start sampleTokens .standard).under .never).expression ⟨0, 9⟩ = (.ok root, after) →
      ((start sampleTokens .standard).under .always).expression ⟨0, 9⟩ = (.ok root', after') →
      ∃ t, after.arena.tree? root = some t ∧ after'.arena.tree? root' = some t := by
  have hok : (groupTokens sampleTokens ⟨0, 9⟩ 256).isOk = true := by decide +kernel
  have hroutes := expression_under_eq (start sampleTokens .standard) ⟨0, 9⟩ .never .always <| by
    intro most spot herror
    rw [show groupTokens sampleTokens ⟨0, 9⟩ 256 = _ from herror] at hok
    cases hok
  have hnever : ((start sampleTokens .standard).under .never |>.expression ⟨0, 9⟩).1.isOk =
      true := by decide +kernel
  exact ⟨hnever, hroutes.1 ▸ hnever, hroutes.2⟩

end Session

end ExprFront
