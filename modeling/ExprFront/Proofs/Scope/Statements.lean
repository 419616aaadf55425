import ExprFront.Proofs.Scope.Bounds
import ExprFront.Proofs.Scope.Closing

/-!
# Sequences of statements

A statement is a balanced run of tokens up to a semicolon. A range of tokens is
split exactly if it is a sequence of stray semicolons and of runs that are taken
for statements, and the ranges of the statements are those of the sequence.

The first token of a statement is never compared with an open bracket: an
opening bracket is open from then on, and any other token opens the statement.
So a run that starts with a closing bracket is taken for a statement as well,
although its brackets do not pair up. This is the only way in which more is
taken than the statements.
-/

namespace ExprFront

theorem map_eq_ok_iff
    {ε α β : Type} {x : Except ε α} {f : α → β} {b : β} :
    x.map f = .ok b ↔ ∃ a, x = .ok a ∧ f a = b := by
  cases x <;> simp [Except.map]

namespace Statement

/-- A non-empty balanced run of tokens without a semicolon outside brackets, which a semicolon
follows. If it starts with a directive, the directive does not occur again outside brackets. -/
structure Forms (tokens : Array Token) (range : TokenRange) : Prop where
  nonempty : range.start < range.stop
  balanced : Balanced tokens (· ≠ .punctuation .semicolon) range.start range.stop
  ended : kindAt tokens range.stop = some (.punctuation .semicolon)
  once : ∀ d, kindAt tokens range.start = some (.directive d) →
    Balanced tokens (fun k => k ≠ .punctuation .semicolon ∧ k ≠ .directive d)
      (range.start + 1) range.stop

/-- A run of tokens that is taken for a statement: a statement, or a closing bracket and then a
balanced run up to a semicolon. -/
inductive Taken (tokens : Array Token) (range : TokenRange) : Prop
  | statement (hforms : Forms tokens range)
  | closing (b : Bracket) (hfirst : kindAt tokens range.start = some (.punctuation b.closing))
      (hbalanced :
        Balanced tokens (· ≠ .punctuation .semicolon) (range.start + 1) range.stop)
      (hended : kindAt tokens range.stop = some (.punctuation .semicolon))

/-- The tokens from an index to `stop` are semicolons and runs of the given form, each of which is
followed by a semicolon within them. The list has the runs. -/
inductive Sequence (tokens : Array Token) (forms : TokenRange → Prop) (stop : Nat) :
    (index : Nat) → List TokenRange → Prop
  | done : Sequence tokens forms stop stop []
  | stray {index : Nat} {ranges : List TokenRange} (hindex : index < stop)
      (hkind : kindAt tokens index = some (.punctuation .semicolon))
      (hrest : Sequence tokens forms stop (index + 1) ranges) :
      Sequence tokens forms stop index ranges
  | run {index last : Nat} {ranges : List TokenRange} (hforms : forms ⟨index, last⟩)
      (hlast : last < stop) (hrest : Sequence tokens forms stop (last + 1) ranges) :
      Sequence tokens forms stop index (⟨index, last⟩ :: ranges)

/-! ## First tokens -/

/-- A balanced run does not start with a closing bracket. -/
theorem Forms.first_ne_closing
    {tokens : Array Token} {range : TokenRange} (h : Forms tokens range) (b : Bracket) :
    kindAt tokens range.start ≠ some (.punctuation b.closing) := by
  intro hfirst
  obtain ⟨k, hkind, hcloses, -⟩ := h.balanced.exists_first h.nonempty
  cases hkind.symm.trans hfirst
  rw [TokenKind.closes_eq_some_iff.mpr rfl] at hcloses
  cases hcloses

/-- A run that is taken for a statement is one unless it starts with a closing bracket. -/
theorem forms_iff_taken
    {tokens : Array Token} {range : TokenRange} :
    Forms tokens range ↔
      Taken tokens range ∧ ∀ b : Bracket,
        kindAt tokens range.start ≠ some (.punctuation b.closing) := by
  constructor
  · intro h
    exact ⟨.statement h, h.first_ne_closing⟩
  · rintro ⟨h | ⟨b, hfirst, -, -⟩, hne⟩
    · exact h
    · exact absurd hfirst (hne b)

theorem Taken.start_lt
    {tokens : Array Token} {range : TokenRange} (h : Taken tokens range) :
    range.start < range.stop := by
  cases h with
  | statement hforms => exact hforms.nonempty
  | closing b hfirst hbalanced => exact hbalanced.le

/-- A run that is taken for a statement does not start with a semicolon. -/
theorem Taken.first_ne_semicolon
    {tokens : Array Token} {range : TokenRange} (h : Taken tokens range) :
    kindAt tokens range.start ≠ some (.punctuation .semicolon) := by
  intro hfirst
  cases h with
  | statement hforms =>
      obtain ⟨k, hkind, -, hfree⟩ := hforms.balanced.exists_first hforms.nonempty
      cases hkind.symm.trans hfirst
      exact hfree rfl rfl
  | closing b hclosing =>
      have hcloses := hclosing.symm.trans hfirst
      cases b <;> cases hcloses

/-! ## One statement -/

theorem admits_terminator_iff
    (t : Token) : terminator.admits t = true ↔ t.kind = .punctuation .semicolon := by
  simp [terminator, Boundary.admits, Token.isPunctuation]

theorem admits_terminator_eq_false_iff
    (t : Token) : terminator.admits t = false ↔ t.kind ≠ .punctuation .semicolon := by
  rw [← Bool.not_eq_true, admits_terminator_iff]

theorem admits_terminator_of_opens
    {t : Token} {b : Bracket} (hopens : t.kind.opens = some b) : terminator.admits t = false := by
  rw [admits_terminator_eq_false_iff, TokenKind.opens_eq_some_iff.mp hopens]
  cases b <;> simp [Bracket.opening]

theorem frees_openStatement :
    (ScopeShape.openStatement .any terminator).Frees (· ≠ .punctuation .semicolon) where
  opening _ _ hopens := admits_terminator_of_opens hopens
  single t _ _ := by simp [ScopeShape.openStatement, admits_terminator_eq_false_iff]

theorem frees_statement
    (d : Directive) :
    (ScopeShape.statement (.directive d) terminator).Frees
      (fun k => k ≠ .punctuation .semicolon ∧ k ≠ .directive d) where
  opening _ _ hopens := admits_terminator_of_opens hopens
  single t _ _ := by
    have hopening : (Boundary.directive d).admits t = false ↔ t.kind ≠ .directive d := by
      simp [Boundary.admits]
    simp [ScopeShape.statement, admits_terminator_eq_false_iff, hopening]

/-- A run that starts with a directive is a statement exactly if the directive does not occur again
up to the semicolon. -/
theorem taken_iff_of_directive
    {tokens : Array Token} {start stop : Nat} {d : Directive}
    (hfirst : kindAt tokens start = some (.directive d)) :
    Taken tokens ⟨start, stop⟩ ↔
      Balanced tokens (fun k => k ≠ .punctuation .semicolon ∧ k ≠ .directive d)
          (start + 1) stop ∧
        kindAt tokens stop = some (.punctuation .semicolon) := by
  constructor
  · rintro (hforms | ⟨b, hclosing, -, -⟩)
    · exact ⟨hforms.once d hfirst, hforms.ended⟩
    · cases hclosing.symm.trans hfirst
  · rintro ⟨hbalanced, hended⟩
    refine .statement ⟨hbalanced.le, ?_, hended, ?_⟩
    · exact .single hfirst rfl rfl (by simp) (hbalanced.mono fun k hk => hk.1)
    · intro other hother
      cases hother.symm.trans hfirst
      exact hbalanced

/-- A statement that does not start with a directive may start with a bracket. -/
theorem initial_openStatement
    {t : Token} (ht : t.kind.opens.isSome = true) :
    (ScopeShape.openStatement .any terminator).initial t = [t] := by
  simp [ScopeShape.initial, ScopeShape.openStatement, ScopeRule.isStatement, ht]

theorem initial_of_opens_eq_none
    {shape : ScopeShape} {t : Token} (hopens : t.kind.opens = none) : shape.initial t = [] := by
  simp [ScopeShape.initial, hopens]

/-- A run that does not start with a directive or a semicolon is taken for a statement exactly if
what its first token leaves open is closed before a semicolon. -/
theorem taken_iff_of_value
    {tokens : Array Token} {start stop : Nat} {t : Token} (ht : tokens[start]? = some t)
    (hdirective : t.kind.directive? = none) (hkind : t.kind ≠ .punctuation .semicolon) :
    Taken tokens ⟨start, stop⟩ ↔
      Closes tokens (· ≠ .punctuation .semicolon)
          ((ScopeShape.openStatement .any terminator).initial t) (start + 1) stop ∧
        kindAt tokens stop = some (.punctuation .semicolon) := by
  have hfirst : kindAt tokens start = some t.kind := kindAt_eq_some_iff.mpr ⟨t, ht, rfl⟩
  constructor
  · rintro (hforms | ⟨b, hclosing, hbalanced, hended⟩)
    · refine ⟨?_, hforms.ended⟩
      have hcloses : Closes tokens (· ≠ .punctuation .semicolon) [] start stop := hforms.balanced
      obtain ⟨-, hempty⟩ | ⟨first, after, hsome, hpasses, hrest⟩ := hcloses.exists_passes
      · exact absurd hforms.nonempty (Nat.not_lt_of_le (Nat.le_of_eq hempty.symm))
      · cases ht.symm.trans hsome
        cases hpasses with
        | single hopens => rwa [initial_of_opens_eq_none hopens]
        | opening hopens => rwa [initial_openStatement (by rw [hopens]; rfl)]
    · refine ⟨?_, hended⟩
      have hmark : t.kind = .punctuation b.closing := Option.some.inj (hfirst.symm.trans hclosing)
      have hopens := TokenKind.opens_eq_none_of_closes (TokenKind.closes_eq_some_iff.mpr hmark)
      rwa [initial_of_opens_eq_none hopens]
  · rintro ⟨hcloses, hended⟩
    have hvalue : ∀ d, kindAt tokens start ≠ some (.directive d) := by
      intro d hd
      rw [Option.some.inj (hfirst.symm.trans hd)] at hdirective
      cases hdirective
    -- a closing bracket in the first place opens the statement like any other token
    cases hclosing : t.kind.closes with
    | some b =>
        have hopens := TokenKind.opens_eq_none_of_closes hclosing
        rw [initial_of_opens_eq_none hopens] at hcloses
        rw [TokenKind.closes_eq_some_iff.mp hclosing] at hfirst
        exact .closing b hfirst hcloses hended
    | none =>
        have hpasses : Passes (· ≠ .punctuation .semicolon) [] t
            ((ScopeShape.openStatement .any terminator).initial t) := by
          cases hopens : t.kind.opens with
          | none =>
              rw [initial_of_opens_eq_none hopens]
              exact .single hopens hclosing fun _ => hkind
          | some b =>
              rw [initial_openStatement (by rw [hopens]; rfl)]
              exact .opening hopens
        exact .statement ⟨hcloses.le, Closes.of_passes ht hpasses hcloses, hended,
          fun d hd => absurd hd (hvalue d)⟩

/-- The scope of a statement that has an opener ends before a semicolon. -/
theorem exists_ofScope_iff
    {shape : ScopeShape} {free : TokenKind → Prop} (hfrees : shape.Frees free)
    (hclosing : shape.closing = terminator) {tokens : Array Token} {start stop : Nat}
    {t : Token} (ht : tokens[start]? = some t) (hadmits : shape.opening.admits t = true)
    (hstart : start < stop) (hstop : stop ≤ tokens.size) (kind : StatementKind) (last : Nat) :
    (∃ statement : Statement,
        (shape.resolve tokens ⟨start, stop⟩).map
            (fun scope => (⟨kind, ⟨scope.start, scope.stop - 1⟩, scope⟩ : Statement)) =
          .ok statement ∧
        statement.range = ⟨start, last⟩) ↔
      last < stop ∧ Closes tokens free (shape.initial t) (start + 1) last ∧
        kindAt tokens last = some (.punctuation .semicolon) := by
  have hended : (∃ t, tokens[last]? = some t ∧ shape.closing.admits t = true) ↔
      kindAt tokens last = some (.punctuation .semicolon) := by
    simp only [hclosing, admits_terminator_iff, kindAt_eq_some_iff]
  constructor
  · rintro ⟨statement, hmap, hrange⟩
    obtain ⟨scope, hscope, rfl⟩ := map_eq_ok_iff.mp hmap
    obtain ⟨found, rfl, hlast, hcloses, hfound⟩ :=
      (ScopeShape.resolve_eq_ok_iff hfrees ht hadmits hstart hstop scope).mp hscope
    cases hrange
    exact ⟨hlast, hcloses, hended.mp hfound⟩
  · rintro ⟨hlast, hcloses, hkind⟩
    have hscope := (ScopeShape.resolve_eq_ok_iff hfrees ht hadmits hstart hstop _).mpr
      ⟨last, rfl, hlast, hcloses, hended.mpr hkind⟩
    exact ⟨⟨kind, ⟨start, last⟩, ⟨start, last + 1⟩⟩, map_eq_ok_iff.mpr ⟨_, hscope, rfl⟩, rfl⟩

theorem directive?_eq_some_iff
    {k : TokenKind} {d : Directive} : k.directive? = some d ↔ k = .directive d := by
  cases k <;> simp [TokenKind.directive?]

/-- A statement is resolved exactly to a run that is taken for one. -/
theorem exists_resolve_iff
    {tokens : Array Token} {start last stop : Nat} {t : Token} (ht : tokens[start]? = some t)
    (hkind : t.kind ≠ .punctuation .semicolon) (hstart : start < stop)
    (hstop : stop ≤ tokens.size) :
    (∃ statement, resolve tokens ⟨start, stop⟩ t = .ok statement ∧
        statement.range = ⟨start, last⟩) ↔
      last < stop ∧ Taken tokens ⟨start, last⟩ := by
  unfold resolve
  cases hdirective : t.kind.directive? with
  | some d =>
      have hd := directive?_eq_some_iff.mp hdirective
      have hfirst := kindAt_eq_some_iff.mpr ⟨t, ht, hd⟩
      have hadmits : (Boundary.directive d).admits t = true := by simp [Boundary.admits, hd]
      rw [taken_iff_of_directive hfirst]
      have hinitial : (ScopeShape.statement (.directive d) terminator).initial t = [] :=
        initial_of_opens_eq_none (by rw [hd]; rfl)
      have hscope := exists_ofScope_iff (frees_statement d) rfl ht hadmits hstart hstop
        (.directive d) last
      rw [hinitial] at hscope
      exact hscope
  | none =>
      rw [taken_iff_of_value ht hdirective hkind]
      exact exists_ofScope_iff frees_openStatement rfl ht rfl hstart hstop .value last

/-! ## Whole ranges -/

/-- A resolved statement starts where the range does, and its scope ends after the semicolon that
follows it. -/
theorem exists_range_of_resolve
    {tokens : Array Token} {start stop : Nat} {t : Token} {statement : Statement}
    (hresolve : resolve tokens ⟨start, stop⟩ t = .ok statement) :
    ∃ last, statement.range = ⟨start, last⟩ ∧ statement.scope.stop = last + 1 := by
  have hscope : ∀ {shape : ScopeShape} {kind : StatementKind},
      (shape.resolve tokens ⟨start, stop⟩).map
          (fun scope => (⟨kind, ⟨scope.start, scope.stop - 1⟩, scope⟩ : Statement)) =
        .ok statement →
      ∃ last, statement.range = ⟨start, last⟩ ∧ statement.scope.stop = last + 1 := by
    intro shape kind hmap
    obtain ⟨scope, hfound, rfl⟩ := map_eq_ok_iff.mp hmap
    obtain ⟨rfl, hlength, -⟩ := shape.resolve_bounds _ _ _ hfound
    exact ⟨scope.stop - 1, rfl, by dsimp only; omega⟩
  unfold resolve at hresolve
  split at hresolve
  · exact hscope hresolve
  · exact hscope hresolve

theorem splitFrom_stop
    (tokens : Array Token) (steps stop : Nat) : splitFrom tokens stop steps stop = .ok [] := by
  cases steps with
  | zero => rfl
  | succ steps => simp [splitFrom]

theorem splitFrom_stray
    {tokens : Array Token} {stop index : Nat} (hindex : index < stop)
    (hkind : kindAt tokens index = some (.punctuation .semicolon)) (steps : Nat) :
    splitFrom tokens stop (steps + 1) index = splitFrom tokens stop steps (index + 1) := by
  obtain ⟨t, ht, hsemicolon⟩ := kindAt_eq_some_iff.mp hkind
  have hmark : t.isPunctuation .semicolon = true := by
    simpa [Token.isPunctuation] using hsemicolon
  simp [splitFrom, Nat.not_le_of_lt hindex, ht, hmark]

/-- Splitting from an index at which a statement starts. -/
theorem splitFrom_run
    {tokens : Array Token} {stop index : Nat} {t : Token} (hindex : index < stop)
    (ht : tokens[index]? = some t) (hkind : t.kind ≠ .punctuation .semicolon) (steps : Nat) :
    splitFrom tokens stop (steps + 1) index =
      (resolve tokens ⟨index, stop⟩ t).bind fun statement =>
        (splitFrom tokens stop steps statement.scope.stop).map (statement :: ·) := by
  have hmark : t.isPunctuation .semicolon = false := by
    simpa [Token.isPunctuation] using hkind
  simp only [splitFrom, Nat.not_le_of_lt hindex, if_false, ht, hmark, Bool.false_eq_true]
  cases resolve tokens ⟨index, stop⟩ t with
  | error e => rfl
  | ok statement =>
      dsimp only [Except.bind]
      cases splitFrom tokens stop steps statement.scope.stop <;> rfl

theorem splitFrom_run_eq_ok_iff
    {tokens : Array Token} {stop index : Nat} {t : Token} (hindex : index < stop)
    (ht : tokens[index]? = some t) (hkind : t.kind ≠ .punctuation .semicolon) (steps : Nat)
    (statements : List Statement) :
    splitFrom tokens stop (steps + 1) index = .ok statements ↔
      ∃ statement later, resolve tokens ⟨index, stop⟩ t = .ok statement ∧
        splitFrom tokens stop steps statement.scope.stop = .ok later ∧
        statements = statement :: later := by
  rw [splitFrom_run hindex ht hkind]
  cases hresolve : resolve tokens ⟨index, stop⟩ t with
  | error e => simp [Except.bind]
  | ok statement =>
      simp only [Except.bind, map_eq_ok_iff, Except.ok.injEq, exists_and_left, exists_eq_left']
      simp only [eq_comm]

/-- Splitting finds exactly the sequences of runs that are taken for statements. -/
theorem exists_splitFrom_iff
    {tokens : Array Token} {stop : Nat} (hstop : stop ≤ tokens.size) {steps index : Nat}
    (hindex : index ≤ stop) (hsteps : stop - index ≤ steps) (ranges : List TokenRange) :
    (∃ statements, splitFrom tokens stop steps index = .ok statements ∧
        statements.map (·.range) = ranges) ↔
      Sequence tokens (Taken tokens) stop index ranges := by
  constructor
  · rintro ⟨statements, hsplit, rfl⟩
    induction steps generalizing index statements with
    | zero =>
        obtain rfl : index = stop := by omega
        cases hsplit
        exact .done
    | succ steps ih =>
        rcases Nat.eq_or_lt_of_le hindex with rfl | hlt
        · rw [splitFrom_stop] at hsplit
          cases hsplit
          exact .done
        · have ht : tokens[index]? = some tokens[index] := Array.getElem?_eq_getElem (by omega)
          by_cases hkind : tokens[index].kind = .punctuation .semicolon
          · have hmark := kindAt_eq_some_iff.mpr ⟨_, ht, hkind⟩
            rw [splitFrom_stray hlt hmark] at hsplit
            exact .stray hlt hmark (ih (by omega) (by omega) statements hsplit)
          · obtain ⟨statement, later, hresolve, hlater, rfl⟩ :=
              (splitFrom_run_eq_ok_iff hlt ht hkind steps statements).mp hsplit
            obtain ⟨last, hrange, hafter⟩ := exists_range_of_resolve hresolve
            obtain ⟨hlast, htaken⟩ :=
              (exists_resolve_iff ht hkind hlt hstop).mp ⟨statement, hresolve, hrange⟩
            have hstart : index < last := htaken.start_lt
            rw [hafter] at hlater
            rw [List.map_cons, hrange]
            exact .run htaken hlast (ih (by omega) (by omega) later hlater)
  · intro hsequence
    induction hsequence generalizing steps with
    | done => exact ⟨[], splitFrom_stop _ _ _, rfl⟩
    | @stray index ranges hlt hkind hrest ih =>
        obtain ⟨more, rfl⟩ : ∃ more, steps = more + 1 := ⟨steps - 1, by omega⟩
        rw [splitFrom_stray hlt hkind]
        exact ih (by omega) (by omega)
    | @run index last ranges htaken hlast hrest ih =>
        have hlt : index < last := htaken.start_lt
        obtain ⟨more, rfl⟩ : ∃ more, steps = more + 1 := ⟨steps - 1, by omega⟩
        have ht : tokens[index]? = some tokens[index] := Array.getElem?_eq_getElem (by omega)
        have hkind : tokens[index].kind ≠ .punctuation .semicolon := fun hkind =>
          htaken.first_ne_semicolon (kindAt_eq_some_iff.mpr ⟨_, ht, hkind⟩)
        obtain ⟨statement, hresolve, hrange⟩ :=
          (exists_resolve_iff ht hkind (by omega) hstop).mpr ⟨hlast, htaken⟩
        obtain ⟨found, hfound, hafter⟩ := exists_range_of_resolve hresolve
        cases hrange.symm.trans hfound
        obtain ⟨later, hlater, hranges⟩ := ih (by omega) (by omega : stop - (last + 1) ≤ more)
        refine ⟨statement :: later, ?_, by simp [hrange, hranges]⟩
        rw [← hafter] at hlater
        exact (splitFrom_run_eq_ok_iff (by omega) ht hkind more _).mpr
          ⟨statement, later, hresolve, hlater, rfl⟩

theorem Sequence.mono
    {tokens : Array Token} {forms wider : TokenRange → Prop} {stop index : Nat}
    {ranges : List TokenRange} (h : Sequence tokens forms stop index ranges)
    (hwider : ∀ range ∈ ranges, forms range → wider range) :
    Sequence tokens wider stop index ranges := by
  induction h with
  | done => exact .done
  | stray hindex hkind _ ih => exact .stray hindex hkind (ih hwider)
  | run hforms hlast _ ih =>
      obtain ⟨hfirst, hlater⟩ := List.forall_mem_cons.mp hwider
      exact .run (hfirst hforms) hlast (ih hlater)

/-- Every run of a sequence has the form that is asked for. -/
theorem Sequence.forms
    {tokens : Array Token} {forms : TokenRange → Prop} {stop index : Nat}
    {ranges : List TokenRange} (h : Sequence tokens forms stop index ranges) :
    ∀ range ∈ ranges, forms range := by
  induction h with
  | done => simp
  | stray _ _ _ ih => exact ih
  | run hforms _ _ ih => exact List.forall_mem_cons.mpr ⟨hforms, ih⟩

/-- A sequence of statements is a sequence of what is taken for statements in which none starts
with a closing bracket. -/
theorem sequence_forms_iff
    {tokens : Array Token} {stop index : Nat} {ranges : List TokenRange} :
    Sequence tokens (Forms tokens) stop index ranges ↔
      Sequence tokens (Taken tokens) stop index ranges ∧
        ∀ range ∈ ranges, ∀ b : Bracket,
          kindAt tokens range.start ≠ some (.punctuation b.closing) := by
  constructor
  · intro h
    exact ⟨h.mono fun _ _ hforms => .statement hforms,
      fun range hrange => (h.forms range hrange).first_ne_closing⟩
  · rintro ⟨h, hfirst⟩
    exact h.mono fun range hrange htaken => forms_iff_taken.mpr ⟨htaken, hfirst range hrange⟩

/-- A range within the tokens is split into runs exactly if it is a sequence of these runs, each
taken for a statement. It is a sequence of statements exactly if it is split and no run starts with
a closing bracket. -/
theorem exists_split_iff_sequence
    (tokens : Array Token) (range : TokenRange) (hrange : range.Within tokens)
    (ranges : List TokenRange) :
    ((∃ statements, split tokens range = .ok statements ∧ statements.map (·.range) = ranges) ↔
        Sequence tokens (Taken tokens) range.stop range.start ranges) ∧
      (Sequence tokens (Forms tokens) range.stop range.start ranges ↔
        (∃ statements, split tokens range = .ok statements ∧
            statements.map (·.range) = ranges) ∧
          ∀ run ∈ ranges, ∀ b : Bracket,
            kindAt tokens run.start ≠ some (.punctuation b.closing)) := by
  have htaken := exists_splitFrom_iff hrange.stop_le hrange.start_le
    (Nat.le_refl range.length) ranges
  exact ⟨htaken, by rw [sequence_forms_iff, ← htaken]; rfl⟩

/-- A semicolon, a block with a semicolon in it, and a condition on itself. -/
def sampleStatements : Array Token :=
  #[⟨.punctuation .semicolon, ";", ⟨0, 1⟩, 1, 1, 1⟩,
    ⟨.punctuation .lbrace, "\x7b", ⟨1, 2⟩, 1, 2, 1⟩,
    ⟨.punctuation .semicolon, ";", ⟨2, 3⟩, 1, 3, 1⟩,
    ⟨.punctuation .rbrace, "\x7d", ⟨3, 4⟩, 1, 4, 1⟩,
    ⟨.punctuation .semicolon, ";", ⟨4, 5⟩, 1, 5, 1⟩, ⟨.directive .ifThen, "#if", ⟨5, 8⟩, 1, 6, 2⟩,
    ⟨.punctuation .lparen, "(", ⟨8, 9⟩, 1, 9, 1⟩, ⟨.directive .ifThen, "#if", ⟨9, 12⟩, 1, 10, 2⟩,
    ⟨.punctuation .rparen, ")", ⟨12, 13⟩, 1, 13, 1⟩,
    ⟨.punctuation .semicolon, ";", ⟨13, 14⟩, 1, 14, 1⟩]

/-- Brackets hide semicolons and directives from the sequence around them. -/
theorem exists_split_iff_sequence_sample :
    (⟨0, 10⟩ : TokenRange).Within sampleStatements ∧
      Sequence sampleStatements (Forms sampleStatements) 10 0 [⟨1, 4⟩, ⟨5, 9⟩] := by
  have hrange : (⟨0, 10⟩ : TokenRange).Within sampleStatements := ⟨by decide, by decide⟩
  have hsplit : split sampleStatements ⟨0, 10⟩ =
      .ok [⟨.value, ⟨1, 4⟩, ⟨1, 5⟩⟩, ⟨.directive .ifThen, ⟨5, 9⟩, ⟨5, 10⟩⟩] := rfl
  refine ⟨hrange, (exists_split_iff_sequence sampleStatements ⟨0, 10⟩ hrange _).2.mpr
    ⟨⟨_, hsplit, rfl⟩, ?_⟩⟩
  simp only [List.forall_mem_cons, List.not_mem_nil, false_imp_iff, implies_true, and_true]
  exact ⟨by rintro (_ | _ | _) <;> decide, by rintro (_ | _ | _) <;> decide⟩

/-- A closing parenthesis and a semicolon. -/
def sampleClosing : Array Token :=
  #[⟨.punctuation .rparen, ")", ⟨0, 1⟩, 1, 1, 1⟩,
    ⟨.punctuation .semicolon, ";", ⟨1, 2⟩, 1, 2, 1⟩]

/-- A closing parenthesis is split off as a value although no statement starts with one. -/
theorem split_closing_without_sequence :
    split sampleClosing ⟨0, 2⟩ = .ok [⟨.value, ⟨0, 1⟩, ⟨0, 2⟩⟩] ∧
      ¬ ∃ ranges, Sequence sampleClosing (Forms sampleClosing) 2 0 ranges := by
  refine ⟨rfl, ?_⟩
  rintro ⟨ranges, hsequence⟩
  cases hsequence with
  | stray _ hkind => exact absurd hkind (by decide)
  | run hforms => exact hforms.first_ne_closing .paren rfl

end Statement

end ExprFront
