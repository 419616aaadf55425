import ExprFront.Proofs.Session.Phrased

/-!
# The grammar of expressions

Read as it was written, a range is an expression exactly if a phrase covers it
in which the operands of every operation obey the rules of priority and
associativity (`Phrase.Ordered`) and grouping parentheses hold one part each
(`Phrase.Single`). The tree that is delivered is that of the phrase, so phrases
that cover the same range do not differ in their trees.
-/

namespace ExprFront

namespace Session

variable {s : Session} {range : TokenRange}

theorem normalizes_of_never
    (hnever : s.config.normalization = .never) : s.normalizes range = false := by
  simp [normalizes, hnever]

/-- With room for all nesting, what is read as it was written are the phrases that obey the
rules. -/
theorem content_eq_ok_iff_of_never
    (hnever : s.config.normalization = .never) (hlimit : range.length + 1 ≤ s.config.limit)
    (t : Tree) :
    s.content range = .ok t ↔
      ∃ p : Phrase, (p.Covers s.tokens range ∧ p.Ordered ∧ p.Single) ∧
        t = (p.tree range.start).bare := by
  constructor
  · intro h
    obtain ⟨p, hp, htree⟩ := exists_accepted_of_content h
    exact ⟨p, ⟨hp.covers, hp.ordered, hp.single⟩, htree⟩
  · rintro ⟨p, ⟨hcovers, hordered, hsingle⟩, rfl⟩
    apply content_of_accepted (Phrase.accepted_of_length_lt hcovers hordered hsingle hlimit)
    simp [normalizes_of_never hnever]

/-- An expression is accepted exactly if a phrase that obeys the rules covers its range, and its
tree is that of any such phrase. -/
theorem expression_isOk_iff_exists_phrase
    (s : Session) (range : TokenRange) (hnever : s.config.normalization = .never)
    (hsimplify : s.config.simplify = false) (hlimit : range.length + 1 ≤ s.config.limit) :
    ((s.expression range).1.isOk = true ↔
      ∃ p : Phrase, p.Covers s.tokens range ∧ p.Ordered ∧ p.Single) ∧
      ∀ (p : Phrase) (root : NodeId) (after : Session),
        p.Covers s.tokens range ∧ p.Ordered ∧ p.Single →
        s.expression range = (.ok root, after) →
        after.arena.tree? root = some (.node .expression range [(p.tree range.start).bare]) := by
  have hcontent := content_eq_ok_iff_of_never hnever hlimit
  constructor
  · rw [isOk_expression]
    constructor
    · intro hok
      cases h : s.content range with
      | ok t =>
          obtain ⟨p, hp, -⟩ := (hcontent t).mp h
          exact ⟨p, hp⟩
      | error e => rw [h] at hok; cases hok
    · rintro ⟨p, hp⟩
      rw [(hcontent _).mpr ⟨p, hp, rfl⟩]
      rfl
  · intro p root after hp hanswer
    have hdelivers := expression_delivers ((hcontent _).mpr ⟨p, hp, rfl⟩)
    rw [Config.finish, hsimplify, if_neg Bool.false_ne_true] at hdelivers
    exact hdelivers.tree?_eq hanswer

/-- The phrase of a prefix operation on a call covers its tokens and obeys the rules. -/
theorem expression_isOk_iff_exists_phrase_sample :
    ((start sampleTokens ⟨10, .never, false⟩).expression ⟨0, 9⟩).1.isOk = true ∧
      ∃ p : Phrase, p.Covers sampleTokens ⟨0, 9⟩ ∧ p.Ordered ∧ p.Single := by
  have hok : ((start sampleTokens ⟨10, .never, false⟩).expression ⟨0, 9⟩).1.isOk = true := by
    decide +kernel
  exact ⟨hok, (expression_isOk_iff_exists_phrase (start sampleTokens ⟨10, .never, false⟩) ⟨0, 9⟩
    rfl rfl (by decide)).1.mp hok⟩

end Session

end ExprFront
