import ExprFront.Proofs.Grouping.Listed
import ExprFront.Proofs.Reading.Rejected
import ExprFront.Proofs.Session.Regrouping

/-!
# What grouping accepts beyond reading

With room for all nesting, every expression that is read can be grouped. The
converse fails in one way only: grouping copies a list of several parts in the
place of an operand, and reading wants a single part there. Grouped tokens with
such a list are rejected at a comma.
-/

namespace ExprFront

namespace Session

/-- A range that can be grouped is an expression exactly if it has no comma list. -/
theorem isOk_expression_of_groupTokens
    {s : Session} {range : TokenRange} {g : Grouped}
    (hgroup : groupTokens s.tokens range s.config.limit = .ok g)
    (hlimit : range.length + 1 ≤ s.config.limit) :
    (s.expression range).1.isOk = true ↔ ¬ HasCommaList s.tokens range := by
  rw [isOk_expression]
  cases hcontent : s.content range with
  | ok t =>
      obtain ⟨p, hp, -⟩ := exists_accepted_of_content hcontent
      have hnone := (hp.covers.single_iff_not_hasCommaList hp.single.filled).mp hp.single
      exact ⟨fun _ => hnone, fun _ => rfl⟩
  | error e =>
      constructor
      · intro hok
        cases hok
      · intro hnone
        obtain ⟨p, hcovers, hordered, hfilled, -⟩ := Grouping.exists_filled_of_groupTokens hgroup
        have hsingle := (hcovers.single_iff_not_hasCommaList hfilled).mpr hnone
        have hread := content_of_accepted
          (Phrase.accepted_of_length_lt hcovers hordered hsingle hlimit)
          fun _ most spot => by simp [hgroup]
        rw [hcontent] at hread
        cases hread

/-- A range that cannot be grouped is no expression. -/
theorem exists_error_of_groupTokens
    {s : Session} {range : TokenRange} {e : ParseError}
    (hgroup : groupTokens s.tokens range s.config.limit = .error e)
    (hlimit : range.length + 1 ≤ s.config.limit) :
    ∃ e', (s.expression range).1 = .error e' := by
  cases hcontent : s.content range with
  | error e' => exact ⟨e', expression_error hcontent⟩
  | ok t =>
      obtain ⟨p, hp, -⟩ := exists_accepted_of_content hcontent
      have hgrouped := hp.covers.groupTokens_eq hp.ordered hp.single hlimit
      rw [hgroup] at hgrouped
      cases hgrouped

/-- What grouping makes of a range is read unless parentheses in the place of an operand hold a
comma; then it is rejected at a comma that was copied from the range, and never by an inserted
group. The range itself is rejected in the same case, and whenever it cannot be grouped. -/
theorem grouped_isOk_iff_not_hasCommaList
    (s : Session) (range : TokenRange) (hlimit : range.length + 1 ≤ s.config.limit) :
    (∀ g, groupTokens s.tokens range s.config.limit = .ok g →
      (∀ production, ((Reading.grouped g s.config.limit).whole ⟨0, g.entries.size⟩
        production).isOk = true ↔ ¬ HasCommaList s.tokens range) ∧
      (HasCommaList s.tokens range → ∃ index t place,
        (Reading.grouped g s.config.limit).FailsAtComma ⟨0, g.entries.size⟩ index ∧
          g.entries[index]? = some ⟨t, some place⟩ ∧ s.tokens[place]? = some t) ∧
      ((s.expression range).1.isOk = true ↔ ¬ HasCommaList s.tokens range)) ∧
      ∀ e, groupTokens s.tokens range s.config.limit = .error e →
        ∃ e', (s.expression range).1 = .error e' := by
  refine ⟨fun g hgroup => ?_, fun e hgroup => exists_error_of_groupTokens hgroup hlimit⟩
  obtain ⟨p, hcovers, hordered, hfilled, hentries⟩ := Grouping.exists_filled_of_groupTokens hgroup
  obtain ⟨hread, hrejected⟩ :=
    Reading.whole_grouped_cases hgroup hlimit hcovers hordered hfilled hentries
  have hsingle := hcovers.single_iff_not_hasCommaList hfilled
  refine ⟨fun production => ?_, fun hlist => ?_, ?_⟩
  · rw [← hsingle]
    constructor
    · intro hok
      by_contra hnot
      obtain ⟨index, -, named, -, hfails⟩ := hrejected hnot
      obtain ⟨finished, herror⟩ := hfails production
      rw [herror] at hok
      cases hok
    · intro h
      rw [hread h production]
      rfl
  · obtain ⟨index, hindex⟩ := hrejected fun h => hsingle.mp h hlist
    obtain ⟨t, place, hentry, ht⟩ := Phrase.exists_source_of_comma hentries hindex.1
    exact ⟨index, t, place, hindex, hentry, ht⟩
  · exact isOk_expression_of_groupTokens hgroup hlimit

/-- The tokens of `(a,b)+c` and those of `()`. -/
def sampleList : Array Token :=
  #[⟨.punctuation .lparen, "(", ⟨0, 1⟩, 1, 1, 1⟩, ⟨.identifier, "a", ⟨1, 2⟩, 1, 2, 1⟩,
    ⟨.punctuation .comma, ",", ⟨2, 3⟩, 1, 3, 1⟩, ⟨.identifier, "b", ⟨3, 4⟩, 1, 4, 1⟩,
    ⟨.punctuation .rparen, ")", ⟨4, 5⟩, 1, 5, 1⟩, ⟨.operator .plus, "+", ⟨5, 6⟩, 1, 6, 1⟩,
    ⟨.identifier, "c", ⟨6, 7⟩, 1, 7, 1⟩, ⟨.punctuation .lparen, "(", ⟨7, 8⟩, 1, 8, 1⟩,
    ⟨.punctuation .rparen, ")", ⟨8, 9⟩, 1, 9, 1⟩]

/-- A list before an operator is grouped but not read; empty parentheses are not even grouped. -/
theorem grouped_isOk_iff_not_hasCommaList_sample :
    (∃ g, groupTokens sampleList ⟨0, 7⟩ 8 = .ok g ∧ HasCommaList sampleList ⟨0, 7⟩ ∧
      (∃ index, (Reading.grouped g 8).FailsAtComma ⟨0, g.entries.size⟩ index) ∧
      ((start sampleList ⟨8, .never, false⟩).expression ⟨0, 7⟩).1.isOk = false) ∧
      ∃ e, ((start sampleList ⟨8, .never, false⟩).expression ⟨7, 9⟩).1 = .error e := by
  have hlist : HasCommaList sampleList ⟨0, 7⟩ :=
    ⟨0, 2, 4, by decide, by decide, rfl, rfl, .of_kindAt rfl rfl rfl trivial, rfl,
      .of_kindAt rfl rfl rfl trivial, rfl⟩
  have hwritten := (grouped_isOk_iff_not_hasCommaList (start sampleList ⟨8, .never, false⟩) ⟨0, 7⟩
    (by decide)).1
  have hempty := (grouped_isOk_iff_not_hasCommaList (start sampleList ⟨8, .never, false⟩) ⟨7, 9⟩
    (by decide)).2
  constructor
  · have hok : (groupTokens sampleList ⟨0, 7⟩ 8).isOk = true := by decide +kernel
    cases hg : groupTokens sampleList ⟨0, 7⟩ 8 with
    | error e =>
        rw [hg] at hok
        cases hok
    | ok g =>
        obtain ⟨-, hrejected, hexpression⟩ := hwritten g hg
        obtain ⟨index, -, -, hfails, -⟩ := hrejected hlist
        exact ⟨g, rfl, hlist, ⟨index, hfails⟩,
          Bool.eq_false_iff.mpr fun hread => hexpression.mp hread hlist⟩
  · have herror : (groupTokens sampleList ⟨7, 9⟩ 8).isOk = false := by decide +kernel
    cases hg : groupTokens sampleList ⟨7, 9⟩ 8 with
    | error e => exact hempty e hg
    | ok g =>
        rw [hg] at herror
        cases herror

end Session

end ExprFront
