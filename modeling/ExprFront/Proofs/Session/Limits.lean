import ExprFront.Program
import ExprFront.Proofs.Grouping.Parallel
import ExprFront.Proofs.Grouping.Shallow
import ExprFront.Proofs.Reading.Steady
import ExprFront.Proofs.Session.Faultless

/-!
# Raising the nesting limit

Under a higher limit an expression is grouped and read as under a lower one,
until the lower limit is reached. So a session either finds the nesting too deep
or gives the answer that it gives under the higher limit, and leaves the same
arena; and a limit that exceeds the number of tokens is never reached.
-/

namespace ExprFront

/-- The nesting is too deep, or the result is that of another run. -/
def SameUnlessDeep {α : Type} (result other : Except ParseError α) : Prop :=
  TooDeep result ∨ result = other

/-- A run ends early by the nesting limit or the bound on recursion. -/
def ParseError.EndsEarly (e : ParseError) : Prop :=
  (∃ limit spot, e = .nestingTooDeep limit spot) ∨ e = .fault .exhausted

theorem ParseError.EndsEarly.exists_tooDeep
    {e : ParseError} (h : e.EndsEarly) (hrefusal : e.IsRefusal) :
    ∃ limit spot, e = .nestingTooDeep limit spot :=
  h.resolve_right (hrefusal .exhausted)

variable {low high : Nat}

/-! ## Grouping and reading -/

/-- Grouping under a lower limit. -/
theorem sameUnlessDeep_groupTokens
    {tokens : Array Token} {range : TokenRange} (hrange : range.Within tokens)
    (hle : low ≤ high) :
    SameUnlessDeep (groupTokens tokens range low) (groupTokens tokens range high) := by
  cases hempty : range.isEmpty with
  | true =>
      right
      rw [groupTokens_of_isEmpty tokens hempty, groupTokens_of_isEmpty tokens hempty]
  | false =>
      have hstop := hrange.stop_le
      simp only [TokenRange.isEmpty, decide_eq_false_iff_not, Nat.not_le] at hempty
      have hfollows : Follows ParseError.EndsEarly Eq (fun g g' => g = Grouped.moved 0 g')
          (groupTokens tokens (range.moved 0) low) (groupTokens tokens range high) :=
        follows_groupTokens (.refl tokens) (.inr ⟨hle, fun spot => .inl ⟨low, spot, rfl⟩⟩)
          (.inr (.inr rfl)) (Nat.lt_of_lt_of_le hempty hstop) hstop
      have hfaultless := faultless_groupTokens hstop low
      rw [TokenRange.moved_zero] at hfollows
      unfold SameUnlessDeep
      generalize groupTokens tokens range low = result at hfollows hfaultless ⊢
      generalize groupTokens tokens range high = other at hfollows ⊢
      cases hfollows with
      | ok h =>
          right
          rw [h, Grouped.moved_zero]
      | error h => exact .inr (by rw [h])
      | early h =>
          obtain ⟨limit, spot, rfl⟩ := h.exists_tooDeep (hfaultless.isRefusal rfl)
          exact .inl ⟨limit, spot, rfl⟩

namespace Reading

theorem beside_raised
    (tokens : Array Token) (isInserted : Nat → Punctuation → Bool) (hle : low ≤ high) :
    Beside ⟨tokens, isInserted, low⟩ ⟨tokens, isInserted, high⟩ ParseError.EndsEarly 0
      tokens.size where
  window := .refl tokens
  isInserted_eq i mark := by rw [Nat.zero_add]
  limit := .inr ⟨hle, fun spot => .inl ⟨low, spot, rfl⟩⟩
  first _ hpos := absurd hpos (Nat.lt_irrefl 0)

/-- Reading under a lower limit fails because the nesting is too deep, or ends in the same way,
with the same trees left over. -/
theorem whole_eq_or_tooDeep
    {tokens : Array Token} {isInserted : Nat → Punctuation → Bool} {range : TokenRange}
    (hrange : range.Within tokens) (hle : low ≤ high) {production : Production}
    (hfaultless : (whole ⟨tokens, isInserted, low⟩ range production).Faultless) :
    whole ⟨tokens, isInserted, low⟩ range production =
        whole ⟨tokens, isInserted, high⟩ range production ∨
      ∃ failure, whole ⟨tokens, isInserted, low⟩ range production = .error failure ∧
        ∃ limit spot, failure.error = .nestingTooDeep limit spot := by
  cases hempty : range.isEmpty with
  | true =>
      rw [whole_of_isEmpty _ hempty, whole_of_isEmpty _ hempty]
      by_cases hzero : low = 0
      · exact .inr ⟨_, rfl, low, _, by rw [if_pos hzero]; rfl⟩
      · left
        rw [if_neg hzero, if_neg (by dsimp only; omega)]
        rfl
  | false =>
      have hstop := hrange.stop_le
      simp only [TokenRange.isEmpty, decide_eq_false_iff_not, Nat.not_le] at hempty
      have htracks := tracks_whole (beside_raised tokens isInserted hle) (.inr (.inr rfl))
        (Nat.lt_of_lt_of_le hempty hstop) hstop production
      rw [TokenRange.moved_zero] at htracks
      generalize whole ⟨tokens, isInserted, low⟩ range production = attempt at htracks hfaultless ⊢
      generalize whole ⟨tokens, isInserted, high⟩ range production = other at htracks ⊢
      cases htracks with
      | ok h =>
          left
          rw [h, Tree.moved_zero]
      | error h =>
          left
          rw [h, Failure.moved_zero]
      | early h => exact .inr ⟨_, rfl, h.exists_tooDeep (hfaultless _ rfl)⟩

end Reading

/-! ## Sessions -/

namespace Session

variable {α : Type} {s : Session} {range : TokenRange}

/-- The session under another nesting limit. -/
def withLimit (s : Session) (limit : Nat) : Session :=
  { s with config := { s.config with limit } }

/-- Calls under two limits: the nesting is too deep for the lower one, or both have the same
answer and leave the same arena. -/
inductive Agree (s : Session) (low high : Nat) : Answer α → Answer α → Prop
  | tooDeep {answer : Answer α} (h : TooDeep answer.1) (other : Answer α) :
      Agree s low high answer other
  | same (result : Except ParseError α) (arena : Arena) :
      Agree s low high (result, withLimit { s with arena } low)
        (result, withLimit { s with arena } high)

theorem agree_commit
    (s : Session) (result : Except Fault (α × Arena)) :
    s.Agree low high ((s.withLimit low).commit result) ((s.withLimit high).commit result) := by
  cases result with
  | ok found => exact .same (.ok found.1) found.2
  | error f => exact .same (.error (.fault f)) s.arena

theorem Agree.of_arena
    {arena : Arena} {answer other : Answer α} (h : Agree { s with arena } low high answer other) :
    s.Agree low high answer other := by
  cases h with
  | tooDeep h => exact .tooDeep h _
  | same result arena => exact .same result arena

theorem agree_refuse
    (s : Session) (failure : Failure) :
    s.Agree (α := α) low high ((s.withLimit low).refuse failure)
      ((s.withLimit high).refuse failure) := by
  simp only [refuse, abandon, withLimit]
  cases s.arena.buildAll failure.finished with
  | ok built => exact .same (.error failure.error) built.2
  | error f => exact .same (.error failure.error) s.arena

theorem agree_direct
    (hrange : range.Within s.tokens) (hle : low ≤ high) :
    s.Agree low high ((s.withLimit low).direct range) ((s.withLimit high).direct range) := by
  have hfaultless := Reading.faultless_whole_plain hrange.stop_le low .expression
  have hread := Reading.whole_eq_or_tooDeep hrange hle hfaultless
  simp only [direct, reading, withLimit, Reading.plain]
  rcases hread with heq | ⟨failure, hfailure, limit, spot, hdeep⟩
  · rw [heq]
    split
    · exact agree_refuse s _
    · exact agree_commit s _
  · rw [hfailure]
    exact .tooDeep ⟨limit, spot, by simp only [refuse, hdeep]⟩ _

theorem agree_normalized
    (hrange : range.Within s.tokens) (hle : low ≤ high) :
    s.Agree low high ((s.withLimit low).normalized range)
      ((s.withLimit high).normalized range) := by
  have hgroup := sameUnlessDeep_groupTokens hrange hle
  simp only [normalized, withLimit]
  rcases hgroup with ⟨limit, spot, hdeep⟩ | heq
  · rw [hdeep]
    exact .tooDeep ⟨limit, spot, rfl⟩ _
  · rw [← heq]
    cases hlow : groupTokens s.tokens range low with
    | error e => exact .same _ s.arena
    | ok g =>
        have hwithin : TokenRange.Within ⟨0, g.entries.size⟩ g.tokens :=
          ⟨Nat.zero_le _, by simp [Grouped.tokens]⟩
        have hread := Reading.whole_eq_or_tooDeep hwithin hle
          (Reading.faultless_whole_grouped hlow .grouping)
        dsimp only [Reading.grouped]
        rcases hread with heq | ⟨failure, hfailure, limit, spot, hdeep⟩
        · rw [heq]
          split
          · exact .same _ s.arena
          · exact agree_commit s _
        · rw [hfailure]
          exact .tooDeep ⟨limit, spot, by simp only [hdeep]⟩ _

/-- An expression is read under a lower limit as under a higher one, unless it nests too deep. -/
theorem agree_expression
    (hrange : range.Within s.tokens) (hle : low ≤ high) :
    s.Agree low high ((s.withLimit low).expression range)
      ((s.withLimit high).expression range) := by
  have hread : s.Agree low high
      (if (s.withLimit low).normalizes range then (s.withLimit low).normalized range
        else (s.withLimit low).direct range)
      (if (s.withLimit high).normalizes range then (s.withLimit high).normalized range
        else (s.withLimit high).direct range) := by
    have hroute : (s.withLimit low).normalizes range = (s.withLimit high).normalizes range := rfl
    rw [hroute]
    split
    · exact agree_normalized hrange hle
    · exact agree_direct hrange hle
  unfold expression
  generalize (if (s.withLimit low).normalizes range then (s.withLimit low).normalized range
    else (s.withLimit low).direct range) = answer at hread ⊢
  generalize (if (s.withLimit high).normalizes range then (s.withLimit high).normalized range
    else (s.withLimit high).direct range) = other at hread ⊢
  cases hread with
  | tooDeep h =>
      obtain ⟨limit, spot, hdeep⟩ := h
      obtain ⟨result, after⟩ := answer
      cases hdeep
      exact .tooDeep ⟨limit, spot, rfl⟩ _
  | same result arena =>
      cases result with
      | error e => exact .same _ arena
      | ok inner => exact (agree_commit { s with arena } _).of_arena

theorem agree_programStatements
    {program : NodeId} {statements : List Statement} (hle : low ≤ high)
    (hwithin : ∀ statement ∈ statements, statement.range.Within s.tokens) :
    s.Agree low high (programStatements program statements (s.withLimit low))
      (programStatements program statements (s.withLimit high)) := by
  induction statements generalizing s with
  | nil => exact .same _ s.arena
  | cons statement more ih =>
      obtain ⟨hfirst, hmore⟩ := List.forall_mem_cons.mp hwithin
      rw [programStatements, programStatements]
      split
      · exact ih hmore
      have hexpression := agree_expression (s := s) hfirst hle
      generalize (s.withLimit low).expression statement.range = answer at hexpression ⊢
      generalize (s.withLimit high).expression statement.range = other at hexpression ⊢
      cases hexpression with
      | tooDeep h =>
          obtain ⟨limit, spot, hdeep⟩ := h
          obtain ⟨result, after⟩ := answer
          cases hdeep
          exact .tooDeep ⟨limit, spot, rfl⟩ _
      | same result arena =>
          cases result with
          | error e => exact .same _ arena
          | ok root =>
              simp only [withLimit]
              cases arena.pushBack program root with
              | error f => exact .same _ arena
              | ok arena => exact (ih (s := { s with arena }) hmore).of_arena

/-! ## Limits that are never reached -/

theorem shallow_content
    (hrange : range.Within s.tokens) (hlimit : range.length + 1 ≤ s.config.limit) :
    Shallow (s.content range) := by
  unfold content
  split
  · split
    · rename_i e hgroup
      have hshallow := shallow_groupTokens s.tokens (Nat.le_of_succ_le hlimit)
      rwa [hgroup] at hshallow
    · rename_i g hgroup
      have hshallow := Reading.reaches_whole_grouped hgroup hlimit .grouping
      split
      · rename_i failure hfailure
        rwa [hfailure] at hshallow
      · trivial
  · have hshallow := Reading.reaches_whole_plain s.tokens hrange.start_le hlimit .expression
    split
    · rename_i failure hfailure
      rw [reading] at hfailure
      rwa [hfailure] at hshallow
    · trivial

theorem shallow_expression
    (hrange : range.Within s.tokens) (hlimit : range.length + 1 ≤ s.config.limit) :
    Shallow (s.expression range).1 := by
  have hshallow := shallow_content hrange hlimit
  cases hcontent : s.content range with
  | ok t =>
      obtain ⟨p, arena, hanswer, -⟩ := expression_delivers hcontent
      rw [hanswer]
      trivial
  | error e =>
      rw [expression_error hcontent]
      rwa [hcontent] at hshallow

theorem shallow_programStatements
    {program : NodeId} {statements : List Statement}
    (hwithin : ∀ statement ∈ statements,
      statement.range.Within s.tokens ∧ statement.range.length + 1 ≤ s.config.limit) :
    Shallow (programStatements program statements s).1 := by
  induction statements generalizing s with
  | nil => trivial
  | cons statement more ih =>
      obtain ⟨⟨hrange, hlimit⟩, hmore⟩ := List.forall_mem_cons.mp hwithin
      rw [programStatements]
      split
      · exact ih hmore
      have hshallow := shallow_expression hrange hlimit
      split
      · rename_i e after hanswer
        rwa [hanswer] at hshallow
      · rename_i root after hanswer
        obtain ⟨t, ⟨p, arena, hdelivered, -⟩, -⟩ := exists_delivers_of_expression hanswer
        rw [hanswer] at hdelivered
        cases hdelivered
        split
        · exact ih hmore
        · exact isShallow_fault _

end Session

/-! ## Programs -/

/-- A program under a lower limit. -/
theorem sameUnlessDeep_program
    (tokens : Array Token) (config : Config) (hle : low ≤ high) :
    SameUnlessDeep (ProgramResult.ofTokens tokens { config with limit := low })
      (ProgramResult.ofTokens tokens { config with limit := high }) := by
  unfold ProgramResult.ofTokens
  dsimp only
  cases hsplit : Statement.split tokens (bodyRange tokens) with
  | error e => exact .inr rfl
  | ok statements =>
      let s : Session := ⟨tokens, config, (Arena.empty.add .program (bodyRange tokens)).2⟩
      have hagree : s.Agree low high
          ((Session.start tokens { config with limit := low }).program (bodyRange tokens)
            statements)
          ((Session.start tokens { config with limit := high }).program (bodyRange tokens)
            statements) :=
        Session.agree_programStatements (s := s) hle fun statement hmem =>
          (Statement.within_of_split hsplit statement hmem).range_within
      dsimp only
      generalize (Session.start tokens { config with limit := low }).program (bodyRange tokens)
        statements = answer at hagree ⊢
      generalize (Session.start tokens { config with limit := high }).program (bodyRange tokens)
        statements = other at hagree ⊢
      cases hagree with
      | tooDeep h =>
          obtain ⟨limit, spot, hdeep⟩ := h
          obtain ⟨result, after⟩ := answer
          cases hdeep
          exact .inl ⟨limit, spot, rfl⟩
      | same result arena =>
          cases result with
          | ok root => exact .inr rfl
          | error e => exact .inr rfl

theorem Statement.Within.length_lt
    {statement : Statement} {tokens : Array Token} {range : TokenRange}
    (h : statement.Within tokens range) : statement.range.length < range.length := by
  have hstart := h.start_ge
  have hlength := h.length_ge
  have hstop := h.stop_le
  rw [h.range_eq]
  simp only [TokenRange.length]
  omega

theorem shallow_program
    (tokens : Array Token) (config : Config)
    (hlimit : (bodyRange tokens).length + 1 ≤ config.limit) :
    Shallow (ProgramResult.ofTokens tokens config) := by
  unfold ProgramResult.ofTokens
  dsimp only
  split
  · exact isShallow_scope _
  · rename_i statements hsplit
    have hshallow : Shallow ((Session.start tokens config).program (bodyRange tokens)
        statements).1 := by
      refine Session.shallow_programStatements fun statement hmem => ?_
      have hwithin := Statement.within_of_split hsplit statement hmem
      have hlength := hwithin.length_lt
      exact ⟨hwithin.range_within, by dsimp only [Session.start]; omega⟩
    split
    · trivial
    · rename_i e after hanswer
      rwa [hanswer] at hshallow

/-- Raising the nesting limit changes no answer: under the lower limit the nesting is too deep, or
grouping, the expression and the program come out as under the higher one, with the same arena. A
limit that exceeds the number of tokens is never reached. -/
theorem sameUnlessDeep_of_limit_le
    (s : Session) (range : TokenRange) (hrange : range.Within s.tokens) (low high : Nat)
    (hle : low ≤ high) :
    SameUnlessDeep (groupTokens s.tokens range low) (groupTokens s.tokens range high) ∧
      (TooDeep ((s.withLimit low).expression range).1 ∨
        ((s.withLimit low).expression range).1 = ((s.withLimit high).expression range).1 ∧
          ((s.withLimit low).expression range).2.arena =
            ((s.withLimit high).expression range).2.arena) ∧
      SameUnlessDeep (ProgramResult.ofTokens s.tokens (s.withLimit low).config)
        (ProgramResult.ofTokens s.tokens (s.withLimit high).config) ∧
      (range.length + 1 ≤ low →
        ¬ TooDeep (groupTokens s.tokens range low) ∧
          ¬ TooDeep ((s.withLimit low).expression range).1) ∧
      ((bodyRange s.tokens).length + 1 ≤ low →
        ¬ TooDeep (ProgramResult.ofTokens s.tokens (s.withLimit low).config)) := by
  refine ⟨sameUnlessDeep_groupTokens hrange hle, ?_, sameUnlessDeep_program s.tokens s.config hle,
    fun hlimit => ⟨?_, ?_⟩, fun hlimit => ?_⟩
  · have hagree := Session.agree_expression hrange hle
    generalize (s.withLimit low).expression range = answer at hagree ⊢
    generalize (s.withLimit high).expression range = other at hagree ⊢
    cases hagree with
    | tooDeep h => exact .inl h
    | same result arena => exact .inr ⟨rfl, rfl⟩
  · exact (shallow_groupTokens s.tokens (Nat.le_of_succ_le hlimit)).not_tooDeep
  · exact (Session.shallow_expression (s := s.withLimit low) hrange hlimit).not_tooDeep
  · exact (shallow_program s.tokens _ hlimit).not_tooDeep

/-- Nine tokens are grouped and read under a limit of ten as under the standard limit, by way of
their grouped form; a limit of one is too low. -/
theorem sameUnlessDeep_of_limit_le_sample :
    TokenRange.Within ⟨0, 9⟩ Session.sampleTokens ∧ 10 ≤ 256 ∧
      TooDeep (groupTokens Session.sampleTokens ⟨0, 9⟩ 1) ∧
      groupTokens Session.sampleTokens ⟨0, 9⟩ 10 = groupTokens Session.sampleTokens ⟨0, 9⟩ 256 ∧
      (((Session.start Session.sampleTokens .standard).withLimit 10).expression ⟨0, 9⟩).1 =
        (((Session.start Session.sampleTokens .standard).withLimit 256).expression ⟨0, 9⟩).1 := by
  have hrange : TokenRange.Within ⟨0, 9⟩ Session.sampleTokens := ⟨by decide, by decide⟩
  obtain ⟨hgroup, hexpression, -, hshallow, -⟩ := sameUnlessDeep_of_limit_le
    (Session.start Session.sampleTokens .standard) ⟨0, 9⟩ hrange 10 256 (by decide)
  obtain ⟨hgroupShallow, hexpressionShallow⟩ := hshallow (by decide)
  exact ⟨hrange, by decide, ⟨1, _, rfl⟩, hgroup.resolve_left hgroupShallow,
    (hexpression.resolve_left hexpressionShallow).1⟩

end ExprFront
