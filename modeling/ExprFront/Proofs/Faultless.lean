import ExprFront.Proofs.Report
import ExprFront.Proofs.Token.Boundaries

/-!
# Values or refusals

On every text, and in every range of every tokens, each function of the library
gives a value or refuses its input: none of them looks for a token or a node
that is not there, steps back from the first index, slices a text inside of a
character, closes the sentinel or attaches a node twice.
-/

namespace ExprFront

/-- Statements and bracket scopes are found by looking at tokens that are there. They end within
the tokens, after two delimiters or more, so their ends can be stepped back from. -/
structure ScopesWithin (tokens : Array Token) (range : TokenRange) : Prop where
  statements :
    Guarded.statementsFrom tokens range.stop range.length range.start =
      .ok (Statement.split tokens range)
  statement_within : ∀ statements, Statement.split tokens range = .ok statements →
    ∀ statement ∈ statements, statement.Within tokens range
  bracket_within : ∀ start stop b scope, Scope.matching tokens ⟨start, stop⟩ b = .ok scope →
    scope.start = start ∧ scope.start + 2 ≤ scope.stop ∧ scope.stop ≤ stop ∧
      scope.stop ≤ tokens.size
  separated : ∀ inner b separator,
    Guarded.separated tokens inner b separator = .ok (Separated.resolve tokens inner b separator)
  separated_within : ∀ inner b separator s,
    Separated.resolve tokens inner b separator = .ok s → s.Within tokens

theorem scopesWithin
    {tokens : Array Token} {range : TokenRange} (h : range.Within tokens) :
    ScopesWithin tokens range where
  statements := Guarded.statementsFrom_eq h.stop_le (Nat.le_refl _)
  statement_within _ := Statement.within_of_split
  bracket_within _ _ _ _ := Scope.bounds_of_matching
  separated := Guarded.separated_eq tokens
  separated_within _ _ _ _ hresolve := (Separated.within_of_resolve hresolve).1

/-- The calls of a session in a range are answered by a value or a refusal. -/
structure Session.AnswersFaultless (s : Session) (range : TokenRange) : Prop where
  expression : Faultless (s.expression range).1
  longest : Faultless (s.longest range).1
  program : ∀ statements, Statement.split s.tokens range = .ok statements →
    Faultless (s.program range statements).1
  /-- Every node that is collapsed is there. -/
  collapsed : ∀ inner after,
    (if s.normalizes range then s.normalized range else s.direct range) = (.ok inner, after) →
      ∃ above, (after.arena.add .expression range).2.pushBack after.arena.size inner = .ok above ∧
        Guarded.absorbAll above (above.descendants above.size [after.arena.size] []) =
          above.simplify after.arena.size
  /-- Trees that a failed attempt leaves behind are put into the arena. -/
  leftovers : ∀ (a : Arena) (trees : List Tree), ∃ ids b, a.buildAll trees = .ok (ids, b)

theorem Session.answersFaultless
    {s : Session} {range : TokenRange} (h : range.Within s.tokens) : s.AnswersFaultless range where
  expression := faultless_expression h.stop_le
  longest := faultless_longest h.stop_le
  program _ := faultless_program h.stop_le
  collapsed _ _ := exists_collapsed
  leftovers a trees := by
    obtain ⟨ps, b, hbuild, -⟩ := Arena.exists_buildAll (fun t _ => Arena.builds t) a
    exact ⟨_, b, hbuild⟩

/-- The tokens in a range are grouped or refused, and what is read from the grouped tokens has
ranges that can be mapped back. Before that, every token that is looked at is there. -/
structure GroupsFaultless (tokens : Array Token) (range : TokenRange) (limit : Nat) : Prop where
  grouped : Faultless (groupTokens tokens range limit)
  ranges : ∀ g production t, groupTokens tokens range limit = .ok g →
    (Reading.grouped g limit).whole ⟨0, g.entries.size⟩ production = .ok t →
      ∀ r ∈ t.ranges, r.start < r.stop
  looked :
    Guarded.hasGroupAfterOperand tokens range = .ok (hasGroupAfterOperand tokens range)
  parens : ∀ (r : Reading) (inner : TokenRange) (production : Production),
    inner.stop ≤ r.tokens.size →
      Guarded.dropOuterParens r production inner.length inner =
        r.dropOuterParens production inner.length inner

theorem groupsFaultless
    {tokens : Array Token} {range : TokenRange} (h : range.Within tokens) (limit : Nat) :
    GroupsFaultless tokens range limit where
  grouped := faultless_groupTokens h.stop_le limit
  ranges _ _ _ := Reading.ranges_of_grouped
  looked := Guarded.hasGroupAfterOperand_eq h
  parens _ _ production hstop := Guarded.dropOuterParens_eq hstop (Nat.le_refl _) production

/-- The reports on a text are values or refusals, and all that they look up is there. -/
structure Report.Faultless (source : String) (config : Config) : Prop where
  trees : Guarded.treeLines source config = treeLines source config ∧
    ExprFront.Faultless (treeLines source config)
  grouped : ExprFront.Faultless (groupedLines source config)
  scopes : Guarded.scopeLines source = scopeLines source ∧
    ExprFront.Faultless (scopeLines source)

theorem Report.faultless
    (source : String) (config : Config) : Report.Faultless source config where
  trees := ⟨Guarded.treeLines_eq source config, faultless_treeLines source config⟩
  grouped := faultless_groupedLines source config
  scopes := ⟨Guarded.scopeLines_eq source, faultless_scopeLines source⟩

/-- On every text and in every range of the tokens of a session, the library is free of faults. -/
theorem faultless_of_within
    (source : String) (config : Config) (s : Session) (range : TokenRange)
    (hrange : range.Within s.tokens) :
    SlicedBetween source ∧ Report.Faultless source config ∧ ScopesWithin s.tokens range ∧
      GroupsFaultless s.tokens range s.config.limit ∧ s.AnswersFaultless range :=
  ⟨slicedBetween source, Report.faultless source config, scopesWithin hrange,
    groupsFaultless hrange s.config.limit, Session.answersFaultless hrange⟩

/-- An expression of nine tokens, and a text with a character of two bytes under a limit that
admits no nesting. -/
theorem faultless_of_within_sample :
    (⟨0, 9⟩ : TokenRange).Within Session.sampleTokens ∧ SlicedBetween "'é';" ∧
      Report.Faultless "'é';" ⟨0, .always, true⟩ ∧ ScopesWithin Session.sampleTokens ⟨0, 9⟩ ∧
      GroupsFaultless Session.sampleTokens ⟨0, 9⟩ 256 ∧
      (Session.start Session.sampleTokens .standard).AnswersFaultless ⟨0, 9⟩ := by
  have hrange : (⟨0, 9⟩ : TokenRange).Within Session.sampleTokens := ⟨by decide, by decide⟩
  exact ⟨hrange, faultless_of_within "'é';" ⟨0, .always, true⟩
    (.start Session.sampleTokens .standard) ⟨0, 9⟩ hrange⟩

end ExprFront
