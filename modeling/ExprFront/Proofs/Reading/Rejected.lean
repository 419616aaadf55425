import ExprFront.Proofs.Reading.Remapped
import ExprFront.Proofs.Reading.Steady

/-!
# Where grouped tokens are rejected

Grouped tokens are rejected only where grouping parentheses hold a comma, if the
limit has room for all nesting. The error stands at the comma, which was copied.

What a range is read for shows in an error only if the range itself is not
filled. An inserted group that cannot be closed names itself, whatever the
tokens are read for; that no error does so shows that all of them are closed.
-/

namespace ExprFront

open Grouping

theorem ParseError.misplacedAt_eq_iff
    {tokens : Array Token} {kind kind' : Misplacement} {production production' : Production}
    {index index' : Nat} :
    misplacedAt tokens kind production index = misplacedAt tokens kind' production' index' ↔
      kind = kind' ∧ production = production' ∧
        Spot.ofIndex tokens index = Spot.ofIndex tokens index' := by
  simp [misplacedAt, ExpressionError.atIndex]

namespace Reading

variable {r : Reading}

/-! ## What a range is read for -/

/-- Whether the parentheses around a range can be dropped does not depend on what it is read for. -/
theorem dropOuterParens_cases
    (r : Reading) (steps : Nat) (range : TokenRange) :
    (∃ inner, ∀ production, r.dropOuterParens production steps range = .ok inner) ∨
      (∃ e, ∀ production, r.dropOuterParens production steps range = .error e) ∨
      ∃ index, ∀ production, r.dropOuterParens production steps range =
        .error (r.misplaced .emptyOperand production index) := by
  induction steps generalizing range with
  | zero => exact .inl ⟨range, fun _ => rfl⟩
  | succ steps ih =>
      simp only [dropOuterParens]
      split
      · exact .inl ⟨range, fun _ => rfl⟩
      · cases Scope.matching r.tokens range .paren with
        | error e => exact .inr (.inl ⟨_, fun _ => rfl⟩)
        | ok scope =>
            simp only [liftScope, bind, Except.bind]
            split
            · exact .inl ⟨range, fun _ => rfl⟩
            · split
              · exact .inr (.inr ⟨scope.start, fun _ => rfl⟩)
              · exact ih scope.interior

/-- What a range is read for shows only in the error of an empty range and of a token that is left
over. -/
theorem fill_cases
    (r : Reading) (fuel depth : Nat) (range : TokenRange) :
    (∃ result, ∀ production, r.fill fuel depth range production = result) ∨
      (∃ index, ∀ production, r.fill fuel depth range production =
        .fail (r.misplaced .emptyOperand production index)) ∨
      ∃ t index, ∀ production, r.fill fuel depth range production =
        .failAfter t (r.surplus production index) := by
  cases fuel with
  | zero => exact .inl ⟨_, fun _ => rfl⟩
  | succ fuel =>
      simp only [fill, fillWith_eq]
      by_cases hdepth : r.limit ≤ depth
      · simp only [deeper, if_pos hdepth]
        exact .inl ⟨_, fun _ => rfl⟩
      · simp only [deeper, if_neg hdepth]
        rcases r.dropOuterParens_cases range.length range with
          ⟨inner, hinner⟩ | ⟨e, herror⟩ | ⟨index, herror⟩
        · simp only [hinner, fillInner]
          split
          · exact .inr (.inl ⟨inner.start, fun _ => rfl⟩)
          · cases r.climb fuel (depth + 1) inner.start inner.stop 0 with
            | error failure => exact .inl ⟨_, fun _ => rfl⟩
            | ok found =>
                dsimp only
                split
                · exact .inr (.inr ⟨found.1, found.2, fun _ => rfl⟩)
                · exact .inl ⟨_, fun _ => rfl⟩
        · simp only [herror]
          exact .inl ⟨_, fun _ => rfl⟩
        · simp only [herror]
          exact .inr (.inl ⟨index, fun _ => rfl⟩)

/-! ## Commas that are left over -/

theorem surplus_of_comma
    {index : Nat} (hcomma : kindAt r.tokens index = some (.punctuation .comma))
    (production : Production) :
    r.surplus production index = .misplacedAt r.tokens .invalidToken production index := by
  simp [surplus, kind?_eq, hcomma, TokenKind.isOperand, misplaced]

/-- What is wrong with a token that is left over does not depend on what is read. -/
theorem surplus_cases
    (r : Reading) (index : Nat) :
    (∃ f, ∀ production, r.surplus production index = .fault f) ∨
      ∃ kind, ∀ production,
        r.surplus production index = .misplacedAt r.tokens kind production index := by
  unfold surplus
  split
  · exact .inl ⟨_, fun _ => rfl⟩
  · split
    · exact .inr ⟨_, fun _ => rfl⟩
    · split
      · exact .inr ⟨_, fun _ => rfl⟩
      · exact .inr ⟨_, fun _ => rfl⟩

/-! ## The error of a comma -/

/-- The error is about a comma in a part of the grammar that is no inserted group, or about the
nesting limit. -/
def IsCommaOrDeep (r : Reading) (e : ParseError) : Prop :=
  (∃ index, e = .tooDeepAt r.tokens r.limit index) ∨
    ∃ production index, production ≠ .grouping ∧
      kindAt r.tokens index = some (.punctuation .comma) ∧
      e = .misplacedAt r.tokens .invalidToken production index

theorem rejectsComma_isCommaOrDeep
    {production : Production} (hproduction : production ≠ .grouping) :
    r.RejectsComma r.IsCommaOrDeep production :=
  fun index hcomma =>
    .inr ⟨production, index, hproduction, hcomma, surplus_of_comma hcomma production⟩

theorem rejects_isCommaOrDeep (r : Reading) : r.Rejects r.IsCommaOrDeep :=
  ⟨fun index => .inl ⟨index, rfl⟩, fun _ hproduction => rejectsComma_isCommaOrDeep hproduction⟩

/-- A range is rejected at a comma, whatever it is read for. The error names what it is read for
or a part of the grammar that does not depend on that, but no inserted group. -/
def FailsAtComma (r : Reading) (range : TokenRange) (index : Nat) : Prop :=
  kindAt r.tokens index = some (.punctuation .comma) ∧
    ∃ named : Option Production, named ≠ some .grouping ∧ ∀ production, ∃ finished,
      r.whole range production =
        .error ⟨.misplacedAt r.tokens .invalidToken (named.getD production) index, finished⟩

/-- If the nesting limit is not reached, a range that is rejected for a comma or the limit is
rejected at a comma. -/
theorem exists_failsAtComma
    {range : TokenRange} {production : Production}
    (hreaches : (r.whole range production).Reaches fun _ => True)
    (h : (r.whole range production).FailsBy r.IsCommaOrDeep) :
    ∃ index, r.FailsAtComma range index := by
  obtain ⟨failure, hfails, ⟨index, hdeep⟩ | ⟨named, index, hnamed, hcomma, herror⟩⟩ := h
  · rw [hfails] at hreaches
    exact absurd hdeep (hreaches _ _)
  refine ⟨index, hcomma, ?_⟩
  -- Only the error of the range itself depends on what it is read for.
  rcases r.fill_cases (recursionBound r.limit) 0 range with
    ⟨result, hresult⟩ | ⟨place, hempty⟩ | ⟨t, place, hsurplus⟩
  · have hall := (hresult production).symm.trans hfails
    refine ⟨some named, by simpa using hnamed, fun other => ⟨failure.finished, ?_⟩⟩
    rw [Option.getD_some, ← herror, whole, hresult, hall]
  · cases hfails.symm.trans (hempty production)
    cases herror
  · cases hfails.symm.trans (hsurplus production)
    refine ⟨none, by simp, fun other => ⟨[t], ?_⟩⟩
    rcases r.surplus_cases place with ⟨f, hfault⟩ | ⟨kind, hkind⟩
    · rw [hfault] at herror
      cases herror
    · rw [hkind, ParseError.misplacedAt_eq_iff] at herror
      obtain ⟨rfl, -, hspot⟩ := herror
      rw [Option.getD_none, whole, hsurplus, hkind,
        ParseError.misplacedAt_eq_iff.mpr ⟨rfl, rfl, hspot⟩]
      rfl

/-- With room for all nesting, a grouped phrase is read if its grouping parentheses hold one part
each, and rejected at a comma otherwise. -/
theorem whole_grouped_cases
    {tokens : Array Token} {range : TokenRange} {limit : Nat} {g : Grouped} {p : Phrase}
    (hgroup : groupTokens tokens range limit = .ok g) (hlimit : range.length + 1 ≤ limit)
    (hcovers : p.Covers tokens range) (hordered : p.Ordered) (hfilled : p.Filled)
    (hentries : g.entries = (p.grouped tokens range.start).toArray) :
    (p.Single → ∀ production,
      (grouped g limit).whole ⟨0, g.entries.size⟩ production = .ok (p.mirror 0).bare) ∧
      (¬ p.Single → ∃ index, (grouped g limit).FailsAtComma ⟨0, g.entries.size⟩ index) := by
  have hlevel : 0 + p.fillLevel ≤ limit := by
    have hwidth := p.fillLevel_le_width
    have hstop := hcovers.stop_eq
    unfold TokenRange.length at hlimit
    omega
  constructor
  · intro hsingle production
    exact (outcome_whole_grouped hcovers.spells hordered hfilled hentries production).1
      ⟨hsingle, hlevel⟩
  · intro hsingle
    have houtcome : Attempt.OutcomeBy (grouped g limit).IsCommaOrDeep
        ((plain tokens limit).AdmitsRange 0 p)
        ((grouped g limit).whole ⟨0, g.entries.size⟩ .expression) (.ok (p.mirror 0).bare) :=
      whole_grouped (rejects_isCommaOrDeep _) (rejectsComma_isCommaOrDeep (by decide))
        hcovers.spells hordered hfilled hentries
    exact exists_failsAtComma (reaches_whole_grouped hgroup hlimit .expression)
      (houtcome.2 fun hadmits => hsingle hadmits.1)

end Reading

/-- A comma of a grouped phrase was copied. -/
theorem Phrase.exists_source_of_comma
    {tokens : Array Token} {p : Phrase} {source index : Nat} {g : Grouped}
    (hentries : g.entries = (p.grouped tokens source).toArray)
    (hcomma : kindAt g.tokens index = some (.punctuation .comma)) :
    ∃ t place, g.entries[index]? = some ⟨t, some place⟩ ∧ tokens[place]? = some t := by
  rw [Grouped.kindAt_tokens] at hcomma
  obtain ⟨⟨t, origin⟩, hentry, hkind⟩ := Option.map_eq_some_iff.mp hcomma
  have hmem : (⟨t, origin⟩ : GroupedToken) ∈ p.grouped tokens source := by
    rw [hentries] at hentry
    exact List.mem_of_getElem? (by simpa using hentry)
  rcases p.stems_of_mem_grouped source _ hmem with ⟨place, rfl, ht⟩ | ⟨-, anchor, mark, hmark, rfl⟩
  · exact ⟨t, place, hentry, ht⟩
  · rcases hmark with rfl | rfl <;> cases hkind

end ExprFront
