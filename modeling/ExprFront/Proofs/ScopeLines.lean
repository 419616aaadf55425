import ExprFront.Proofs.Program
import ExprFront.Proofs.Scope.Resolved

/-!
# The report of the scopes

The report lists the statements of a text and then its bracket scopes, each on a
line of its own. It seeks every scope anew and could fail at any of them, but once
the text is split into statements all its brackets resolve. So the report fails with
the error of the tokens or of the statements and with no other.
-/

namespace ExprFront

namespace Report

variable {source : String} {tokens : Array Token}

/-! ## Lines -/

/-- Whether a bracket opens at the index. -/
def opensAt (tokens : Array Token) (index : Nat) : Bool :=
  tokens[index]?.any (·.kind.opens.isSome)

/-- The opening brackets of a range in source order, by their indices. -/
def openings (tokens : Array Token) (range : TokenRange) : List Nat :=
  (List.range' range.start range.length).filter (opensAt tokens)

/-- The line says where the statement starts, of what kind it is and what its tokens are. -/
def ListsStatement (tokens : Array Token) (statement : Statement) (line : String) : Prop :=
  ∃ first, tokens[statement.range.start]? = some first ∧
    line = "statement " ++ place first ++ " " ++ statement.kind.text ++ " " ++
      literalsText tokens statement.range

/-- The line says of what kind the bracket at the index is, where it and its partner are and what
the tokens between them are. The partner is sought up to `stop`. -/
def ListsScope (tokens : Array Token) (stop index : Nat) (line : String) : Prop :=
  ∃ (b : Bracket) (scope : Scope) (opener closer : Token), tokens[index]? = some opener ∧
    opener.kind = .punctuation b.opening ∧ Scope.matching tokens ⟨index, stop⟩ b = .ok scope ∧
    tokens[scope.stop - 1]? = some closer ∧ closer.kind = .punctuation b.closing ∧
    line = b.describe ++ " " ++ place opener ++ ".." ++ place closer ++ " " ++
      literalsText tokens scope.interior

theorem ListsStatement.newline_not_mem
    {statement : Statement} {line : String} (h : ListsStatement tokens statement line)
    (hlex : lex source = .ok tokens) : '\n' ∉ line.toList := by
  obtain ⟨first, -, rfl⟩ := h
  have hkind : '\n' ∉ statement.kind.text.toList := by
    cases statement.kind with
    | directive d => cases d <;> decide
    | value => decide
  have hliterals := newline_not_mem_literalsText
    (fun t ht => (isInline_of_lex hlex ht).newline_not_mem) statement.range
  simp only [String.toList_append, List.mem_append, not_or]
  exact ⟨⟨⟨⟨⟨by decide, newline_not_mem_place first⟩, by decide⟩, hkind⟩, by decide⟩, hliterals⟩

theorem ListsScope.newline_not_mem
    {stop index : Nat} {line : String} (h : ListsScope tokens stop index line)
    (hlex : lex source = .ok tokens) : '\n' ∉ line.toList := by
  obtain ⟨b, scope, opener, closer, -, -, -, -, -, rfl⟩ := h
  have hbracket : '\n' ∉ b.describe.toList := by cases b <;> decide
  have hliterals := newline_not_mem_literalsText
    (fun t ht => (isInline_of_lex hlex ht).newline_not_mem) scope.interior
  simp only [String.toList_append, List.mem_append, not_or]
  exact ⟨⟨⟨⟨⟨⟨hbracket, by decide⟩, newline_not_mem_place opener⟩, by decide⟩,
    newline_not_mem_place closer⟩, by decide⟩, hliterals⟩

/-! ## Statements and scopes -/

theorem listsStatement_statementLine
    {range : TokenRange} {statement : Statement} (h : statement.Within tokens range) :
    ListsStatement tokens statement (statementLine tokens statement) := by
  have hlength := h.length_ge
  have hsize := h.size_ge
  have hfirst : tokens[statement.scope.start]? = some tokens[statement.scope.start] :=
    Array.getElem?_eq_getElem (by omega)
  have hstart : statement.range.start = statement.scope.start := by rw [h.range_eq]
  have hplace : statementPlace tokens statement = place tokens[statement.scope.start] := by
    simp only [statementPlace, hfirst]
  have hline : statementLine tokens statement = "statement " ++ statementPlace tokens statement ++
      " " ++ statement.kind.text ++ " " ++ literalsText tokens statement.range := rfl
  exact ⟨tokens[statement.scope.start], by rw [hstart, hfirst], by rw [hline, hplace]⟩

/-- Where all brackets resolve, there is a line for each of them. -/
theorem exists_scopesAt
    {stop : Nat} (indices : List Nat) (hstop : stop ≤ tokens.size)
    (hindices : ∀ index ∈ indices, index < stop)
    (h : ∀ index ∈ indices, ∀ b : Bracket, kindAt tokens index = some (.punctuation b.opening) →
      ∃ scope, Scope.matching tokens ⟨index, stop⟩ b = .ok scope) :
    ∃ lines, scopesAt tokens stop indices = .ok lines ∧
      List.Forall₂ (ListsScope tokens stop) (indices.filter (opensAt tokens)) lines := by
  induction indices with
  | nil => exact ⟨[], rfl, .nil⟩
  | cons index more ih =>
      obtain ⟨hindex, hmore⟩ := List.forall_mem_cons.mp hindices
      obtain ⟨hresolved, hlater⟩ := List.forall_mem_cons.mp h
      obtain ⟨lines, hlines, hlists⟩ := ih hmore hlater
      obtain ⟨opener, hopener⟩ : ∃ opener, tokens[index]? = some opener :=
        ⟨tokens[index], Array.getElem?_eq_getElem (by omega)⟩
      cases hopens : opener.kind.opens with
      | none =>
          have hnone : opensAt tokens index = false := by simp [opensAt, hopener, hopens]
          rw [List.filter_cons_of_neg (by simp [hnone])]
          refine ⟨lines, ?_, hlists⟩
          simp only [scopesAt, hopener, hopens, hlines]
      | some b =>
          have hsome : opensAt tokens index = true := by simp [opensAt, hopener, hopens]
          have hkind := TokenKind.opens_eq_some_iff.mp hopens
          have hopening := kindAt_eq_some_iff.mpr ⟨opener, hopener, hkind⟩
          obtain ⟨scope, hscope⟩ := hresolved b hopening
          obtain ⟨-, hpair⟩ := Scope.isPair_of_matching hindex hstop hopening hscope
          obtain ⟨closer, hcloser, hcloserKind⟩ := kindAt_eq_some_iff.mp hpair.closing
          rw [List.filter_cons_of_pos hsome]
          refine ⟨scopeLine tokens opener b scope :: lines, ?_, .cons ?_ hlists⟩
          · simp only [scopesAt, hopener, hopens, hscope, hlines, liftScope, bind, Except.bind,
              pure, Except.pure]
          · refine ⟨b, scope, opener, closer, hopener, hkind, hscope, hcloser, hcloserKind, ?_⟩
            simp only [scopeLine, hcloser]

theorem bodyRange_start (tokens : Array Token) : (bodyRange tokens).start = 0 := by
  unfold bodyRange
  split
  · split <;> rfl
  · rfl

/-- What the report of the scopes of a text is: the error of its tokens or of its statements, or
else the lines of all statements and then those of all opening brackets. -/
structure ScopesListed (source : String) : Prop where
  lexical : ∀ e, lex source = .error e → scopeLines source = .error (.lexical e)
  statements : ∀ tokens e, lex source = .ok tokens →
    Statement.split tokens (bodyRange tokens) = .error e → scopeLines source = .error (.scope e)
  listed : ∀ tokens statements, lex source = .ok tokens →
    Statement.split tokens (bodyRange tokens) = .ok statements →
    ∃ first later, scopeLines source = .ok (unlines (first ++ later)) ∧
      List.Forall₂ (ListsStatement tokens) statements first ∧
      List.Forall₂ (ListsScope tokens (bodyRange tokens).stop)
        (openings tokens (bodyRange tokens)) later ∧
      ∀ line ∈ first ++ later, '\n' ∉ line.toList

theorem scopesListed
    (source : String) : ScopesListed source where
  lexical e hlex := by
    simp only [scopeLines, lexSource, hlex, bind, Except.bind]
  statements tokens e hlex hsplit := by
    simp only [scopeLines, lexSource, hlex, hsplit, liftScope, bind, Except.bind]
  listed tokens statements hlex hsplit := by
    have hbody := bodyRange_within tokens
    have hstart := bodyRange_start tokens
    have hresolves := Statement.resolves_of_split hbody hsplit
    have hmatching : ∀ index ∈ List.range (bodyRange tokens).stop, ∀ b : Bracket,
        kindAt tokens index = some (.punctuation b.opening) →
        ∃ scope, Scope.matching tokens ⟨index, (bodyRange tokens).stop⟩ b = .ok scope := by
      intro index hindex b hopening
      have hlow : (bodyRange tokens).start ≤ index := by
        rw [hstart]
        exact Nat.zero_le index
      obtain ⟨scope, -, hscope, -⟩ :=
        hresolves.resolved index b hlow (List.mem_range.mp hindex) hopening
      exact ⟨scope, hscope⟩
    obtain ⟨later, hlater, hscopes⟩ :=
      exists_scopesAt _ hbody.stop_le (fun _ hindex => List.mem_range.mp hindex) hmatching
    have hopenings : openings tokens (bodyRange tokens) =
        (List.range (bodyRange tokens).stop).filter (opensAt tokens) := by
      rw [openings, TokenRange.length, hstart, Nat.sub_zero, List.range_eq_range']
    have hstatements : List.Forall₂ (ListsStatement tokens) statements
        (statements.map (statementLine tokens)) := by
      rw [List.forall₂_map_right_iff, List.forall₂_same]
      exact fun statement hmem =>
        listsStatement_statementLine (Statement.within_of_split hsplit statement hmem)
    rw [← hopenings] at hscopes
    refine ⟨statements.map (statementLine tokens), later, ?_, hstatements, hscopes, ?_⟩
    · simp only [scopeLines, lexSource, hlex, hsplit, hlater, liftScope, bind, Except.bind, pure,
        Except.pure]
    · intro line hline
      rcases List.mem_append.mp hline with hfirst | hsecond
      · obtain ⟨statement, -, hlists⟩ := exists_mem_of_forall₂ hstatements.flip hfirst
        exact ListsStatement.newline_not_mem hlists hlex
      · obtain ⟨index, -, hlists⟩ := exists_mem_of_forall₂ hscopes.flip hsecond
        exact ListsScope.newline_not_mem hlists hlex

/-- Once a range is split into statements, all its brackets resolve inside the statements that hold
them. So the report of the scopes of a text fails only where its tokens or its statements do, and
lists every statement and every bracket otherwise. -/
theorem resolves_and_scopesListed
    {tokens : Array Token} {range : TokenRange} {statements : List Statement}
    (hrange : range.Within tokens) (hsplit : Statement.split tokens range = .ok statements) :
    Statement.Resolves tokens range statements ∧ ∀ source, ScopesListed source :=
  ⟨Statement.resolves_of_split hrange hsplit, scopesListed⟩

/-- The tokens of two statements, one with a semicolon inside brackets and one that starts with a
closing bracket. -/
def sampleBrackets : Array Token := ((lex "x(a, [b;c]);]\x7by\x7d;").toOption.getD #[])

/-- All brackets that open in these statements resolve, and the report lists them. -/
theorem resolves_and_scopesListed_sample :
    Statement.split sampleBrackets ⟨0, 16⟩ =
        .ok [⟨.value, ⟨0, 10⟩, ⟨0, 11⟩⟩, ⟨.value, ⟨11, 15⟩, ⟨11, 16⟩⟩] ∧
      openings sampleBrackets ⟨0, 16⟩ = [1, 4, 12] ∧
      Statement.Resolves sampleBrackets ⟨0, 16⟩
        [⟨.value, ⟨0, 10⟩, ⟨0, 11⟩⟩, ⟨.value, ⟨11, 15⟩, ⟨11, 16⟩⟩] ∧
      ScopesListed "x(a, [b;c]);]\x7by\x7d;" := by
  have hrange : (⟨0, 16⟩ : TokenRange).Within sampleBrackets :=
    ⟨by decide, by decide +kernel⟩
  have hsplit : Statement.split sampleBrackets ⟨0, 16⟩ =
      .ok [⟨.value, ⟨0, 10⟩, ⟨0, 11⟩⟩, ⟨.value, ⟨11, 15⟩, ⟨11, 16⟩⟩] := by
    decide +kernel
  obtain ⟨hresolves, hlisted⟩ := resolves_and_scopesListed hrange hsplit
  exact ⟨hsplit, by decide +kernel, hresolves, hlisted _⟩

end Report

end ExprFront
