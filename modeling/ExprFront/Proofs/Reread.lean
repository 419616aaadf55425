import ExprFront.Proofs.Grouping.Joined
import ExprFront.Proofs.Phrase.Alike
import ExprFront.Proofs.Report
import ExprFront.Proofs.Session.Regrouping

/-!
# Grouped lines read again

The grouped form of a value statement is reported as one line. Cut into tokens
again, the line gives the tokens of the grouped form in other places, so reading
it as an expression finds the wrapped phrase, and the tree is the one that is
reported for the statement. The exception is a statement that hides a real
number: there the line has fewer tokens than the grouped form.
-/

namespace ExprFront

open Grouping

/-! ## One line -/

/-- The tokens of a text end with the end mark, and the body is what comes before it. -/
theorem bodyRange_of_map_piece
    {tokens : Array Token} {pieces : List Piece}
    (h : tokens.toList.map Token.piece = pieces ++ [⟨.eof, []⟩]) :
    tokens.size = pieces.length + 1 ∧ bodyRange tokens = ⟨0, pieces.length⟩ := by
  have hsize : tokens.size = pieces.length + 1 := by
    simpa using congrArg List.length h
  have hlast : tokens.toList.getLast?.map Token.piece = some ⟨.eof, []⟩ := by
    rw [← List.getLast?_map, h, List.getLast?_concat]
  rw [Array.getLast?_toList] at hlast
  obtain ⟨t, ht, hpiece⟩ := Option.map_eq_some_iff.mp hlast
  have hkind : t.kind = .eof := congrArg Piece.kind hpiece
  refine ⟨hsize, ?_⟩
  simp only [bodyRange, ht, hkind, if_true, hsize, Nat.add_sub_cancel]

theorem endsOperand_nil : EndsOperand [] where
  name := by simp [EndsBefore]
  point := by simp [PointFree]

namespace Phrase

variable {source : String} {tokens : Array Token} {range : TokenRange} {p : Phrase}

/-- The text of a grouped phrase has the tokens of the grouped phrase, in other places. -/
theorem exists_lex_text
    (hlex : lex source = .ok tokens) (hcovers : p.Covers tokens range) (hordered : p.Ordered)
    (hreal : ¬ HidesReal tokens range) {g : Grouped}
    (hentries : g.entries = (p.grouped tokens range.start).toArray) :
    ∃ again, lex g.text = .ok again ∧ again.size = g.tokens.size + 1 ∧
      bodyRange again = ⟨0, g.tokens.size⟩ ∧ Alike g.tokens again g.tokens.size := by
  have hlexed : AllLexed tokens := fun t ht hkind => isLexed_of_lex hlex ht hkind
  have hlies : p.Lies tokens range range.start :=
    ⟨hcovers.spells, hordered, Nat.le_refl _, Nat.le_of_eq hcovers.stop_eq,
      fun hlt => absurd hlt (Nat.lt_irrefl _)⟩
  have hjoins := p.canJoin hlexed hreal range.start [] hlies
    (p.endsAt_of_endsOperand endsOperand_nil)
  have hkinds : ∀ piece ∈ pieces (p.grouped tokens range.start), piece.kind.isTrivia = false := by
    intro piece hpiece
    obtain ⟨e, he, rfl⟩ := List.mem_map.mp hpiece
    exact (isInline_of_mem_grouped hlex he).isTrivia_eq
  have htext : g.text.toList = joined (pieces (p.grouped tokens range.start)) := by
    rw [g.toList_text, hentries]
  obtain ⟨again, hagain, hpieces⟩ := exists_lex_of_joins htext hjoins hkinds
  obtain ⟨hsize, hbody⟩ := bodyRange_of_map_piece hpieces
  have hlength : (pieces (p.grouped tokens range.start)).length = g.tokens.size := by
    simp [pieces, Grouped.tokens, hentries]
  have hcopied : g.tokens.toList.map Token.piece = pieces (p.grouped tokens range.start) := by
    simp [pieces, Grouped.tokens, hentries, Function.comp_def]
  rw [hlength] at hsize hbody
  rw [← hcopied] at hpieces
  exact ⟨again, hagain, hsize, hbody, .of_map_piece hpieces⟩

end Phrase

namespace Report

variable {source : String} {tokens : Array Token} {limit : Nat}

/-- The report of an expression is the tree of the phrase that is read. -/
theorem expressionLine_of_accepted
    {p : Phrase} (hlex : lex source = .ok tokens)
    (hp : p.Accepted tokens limit (bodyRange tokens)) :
    expressionLine source (.plain limit) =
      .ok ((p.tree (bodyRange tokens).start).plainText tokens ++ "\n") := by
  obtain ⟨r, hr, hsexpr⟩ := ExpressionResult.exists_of_accepted hp
  simp only [expressionLine, ExpressionResult.ofSource, lexSource, hlex, bind, Except.bind, hr,
    pure, Except.pure]
  rw [← hsexpr]
  rfl

/-- A value statement with what is reported of it. -/
structure Row where
  statement : Statement
  /-- The grouped form. -/
  line : String
  /-- The tree. -/
  tree : String

/-- The grouped form and the tree are those of a phrase that obeys the rules. -/
def Row.Reports (tokens : Array Token) (row : Row) : Prop :=
  ∃ (p : Phrase) (g : Grouped), p.Covers tokens row.statement.range ∧ p.Ordered ∧ p.Single ∧
    g.entries = (p.grouped tokens row.statement.range.start).toArray ∧ row.line = g.text ∧
    row.tree = (p.tree row.statement.range.start).plainText tokens

theorem Row.Reports.newline_not_mem
    {row : Row} (h : row.Reports tokens) (hlex : lex source = .ok tokens) :
    '\n' ∉ row.line.toList := by
  obtain ⟨p, g, -, -, -, hentries, hline, -⟩ := h
  rw [hline, g.toList_text, hentries, joined, List.mem_flatMap]
  rintro ⟨piece, hpiece, hmem⟩
  obtain ⟨e, he, rfl⟩ := List.mem_map.mp hpiece
  exact (Phrase.isInline_of_mem_grouped hlex he).newline_not_mem hmem

/-- The line is read again as the tree, unless the statement hides a real number. -/
theorem Row.Reports.exists_expressionLine
    {row : Row} (h : row.Reports tokens) (hlex : lex source = .ok tokens)
    (hreal : ¬ HidesReal tokens row.statement.range) :
    ∃ enough, ∀ most, enough ≤ most →
      expressionLine row.line (.plain most) = .ok (row.tree ++ "\n") := by
  obtain ⟨p, g, hcovers, hordered, hsingle, hentries, hline, htree⟩ := h
  obtain ⟨again, hagain, hsize, hbody, halike⟩ :=
    Phrase.exists_lex_text hlex hcovers hordered hreal hentries
  obtain ⟨hwrapped, hplain⟩ := hcovers.wrapped hentries
  have hsingle' := Phrase.single_wrapped hsingle
  -- The tokens of the line differ from those of the grouped form in their places only.
  obtain ⟨hcovers', htext⟩ := hwrapped.alike hsingle' halike (Nat.le_refl _)
  refine ⟨again.size, fun most hmost => ?_⟩
  have hlength : (⟨0, g.tokens.size⟩ : TokenRange).length < most := by
    simp only [TokenRange.length]
    omega
  have hp := Phrase.accepted_of_length_lt hcovers' (Phrase.ordered_wrapped hordered) hsingle'
    hlength
  rw [← hbody] at hp
  rw [hline, htree, expressionLine_of_accepted hagain hp, hbody, htext, hplain]

end Report

/-! ## Programs -/

namespace Report

variable {source : String} {tokens : Array Token} {limit : Nat}

/-- The statement is an accepted phrase, and the text is its tree. -/
def IsReported (tokens : Array Token) (limit : Nat) (statement : Statement) (text : String) :
    Prop :=
  ∃ p : Phrase, p.Accepted tokens limit statement.range ∧
    text = (p.tree statement.range.start).plainText tokens

/-- Each value statement of a program is reported. -/
theorem forall₂_isReported_of_ofTokens
    {program : ProgramResult} (h : ProgramResult.ofTokens tokens (.plain limit) = .ok program) :
    List.Forall₂ (IsReported tokens limit) (program.statements.filter Statement.isValue)
      ((program.arena.children program.root).map (program.arena.sexpr tokens)) := by
  obtain ⟨node, hnode, -, htrees⟩ := forall₂_trees_of_ofTokens h
  rw [Arena.children, hnode, List.forall₂_map_right_iff]
  refine htrees.imp ?_
  rintro statement id ⟨t, hcontent, htree⟩
  obtain ⟨p, hp, rfl⟩ := Session.exists_accepted_of_content hcontent
  have hsimplify : (Config.plain limit).simplify = true := rfl
  refine ⟨p, hp, ?_⟩
  rw [Arena.sexpr_eq_of_tree? _ _ _ _ htree, Config.finish, if_pos hsimplify, ← Tree.plainText,
    Tree.plainText_wrapper rfl, Tree.plainText_bare]

/-- Statements that are accepted phrases are grouped one after the other. -/
theorem exists_rows_of_forall₂
    {statements : List Statement} {texts : List String} {room : Nat}
    (h : List.Forall₂ (IsReported tokens limit) (statements.filter Statement.isValue) texts)
    (hroom : ∀ statement ∈ statements, statement.range.length + 1 ≤ room) :
    ∃ rows : List Row, rows.map Row.statement = statements.filter Statement.isValue ∧
      rows.map Row.tree = texts ∧
      groupedStatements tokens room statements = .ok (rows.map Row.line) ∧
      ∀ row ∈ rows, row.Reports tokens := by
  induction statements generalizing texts with
  | nil =>
      cases h
      exact ⟨[], rfl, rfl, rfl, by simp⟩
  | cons statement more ih =>
      obtain ⟨hfirst, hmore⟩ := List.forall_mem_cons.mp hroom
      rw [groupedStatements]
      cases hkind : statement.kind with
      | directive d =>
          have hdirective : statement.isValue = false := by rw [Statement.isValue, hkind]
          rw [List.filter_cons_of_neg (by simp [hdirective])] at h ⊢
          exact ih h hmore
      | value =>
          have hvalue : statement.isValue = true := by rw [Statement.isValue, hkind]
          rw [List.filter_cons_of_pos hvalue] at h ⊢
          cases h with
          | cons hstatement hothers =>
              obtain ⟨p, hp, rfl⟩ := hstatement
              obtain ⟨rows, hstatements, htrees, hlines, hreports⟩ := ih hothers hmore
              let g : Grouped := ⟨(p.grouped tokens statement.range.start).toArray⟩
              have hgroup : groupTokens tokens statement.range room = .ok g :=
                hp.covers.groupTokens_eq hp.ordered hp.single hfirst
              refine ⟨⟨statement, g.text, (p.tree statement.range.start).plainText tokens⟩ :: rows,
                ?_, ?_, ?_, ?_⟩
              · rw [List.map_cons, hstatements]
              · rw [List.map_cons, htrees]
              · rw [hgroup, hlines]
                rfl
              · rw [List.forall_mem_cons]
                exact ⟨⟨p, g, hp.covers, hp.ordered, hp.single, rfl, rfl, rfl⟩, hreports⟩

/-- The grouped form of each value statement is reported as one line. Read as an expression, the
line gives the tree that is reported for the statement, unless the statement hides a real number. -/
theorem exists_rows_reread
    (source : String) (tokens : Array Token) (program : ProgramResult) (limit room : Nat)
    (hlex : lex source = .ok tokens)
    (hprogram : ProgramResult.ofTokens tokens (.plain limit) = .ok program)
    (hroom : tokens.size < room) :
    ∃ rows : List Row,
      rows.map Row.statement = program.statements.filter Statement.isValue ∧
      treeLines source (.plain limit) =
        .ok (unlines (statementTrees tokens program.statements (rows.map Row.tree))) ∧
      groupedLines source (.plain room) = .ok (unlines (rows.map Row.line)) ∧
      ∀ row ∈ rows, '\n' ∉ row.line.toList ∧
        (¬ HidesReal tokens row.statement.range → ∃ enough, ∀ most, enough ≤ most →
          expressionLine row.line (.plain most) = .ok (row.tree ++ "\n")) := by
  obtain ⟨hsplit, -⟩ := exists_drafts_of_ofTokens hprogram
  have hlengths : ∀ statement ∈ program.statements, statement.range.length + 1 ≤ room := by
    intro statement hmem
    have hstop := (Statement.within_of_split hsplit statement hmem).range_within.stop_le
    unfold TokenRange.length
    omega
  obtain ⟨rows, hstatements, htrees, hlines, hreports⟩ :=
    exists_rows_of_forall₂ (forall₂_isReported_of_ofTokens hprogram) hlengths
  refine ⟨rows, hstatements, ?_, ?_, fun row hrow => ?_⟩
  · simp only [treeLines, lexSource, hlex, bind, Except.bind, hprogram, htrees, pure, Except.pure]
  · simp only [groupedLines, lexSource, hlex, bind, Except.bind, hsplit, liftScope, pure,
      Except.pure, Config.plain, hlines]
  · exact ⟨(hreports row hrow).newline_not_mem hlex,
      fun hreal => (hreports row hrow).exists_expressionLine hlex hreal⟩

/-- The tokens of `f.1 + 2 * x;`. -/
def sampleTokens : Array Token :=
  #[⟨.identifier, "f", ⟨0, 1⟩, 1, 1, 1⟩, ⟨.operator .dot, ".", ⟨1, 2⟩, 1, 2, 1⟩,
    ⟨.number, "1", ⟨2, 3⟩, 1, 3, 1⟩, ⟨.operator .plus, "+", ⟨4, 5⟩, 1, 5, 1⟩,
    ⟨.number, "2", ⟨6, 7⟩, 1, 7, 1⟩, ⟨.operator .star, "*", ⟨8, 9⟩, 1, 9, 1⟩,
    ⟨.identifier, "x", ⟨10, 11⟩, 1, 11, 1⟩, ⟨.punctuation .semicolon, ";", ⟨11, 12⟩, 1, 12, 1⟩,
    ⟨.eof, "", ⟨12, 12⟩, 1, 13, 1⟩]

/-- The number that is a member hides no real number. -/
theorem exists_rows_reread_sample :
    ∃ (program : ProgramResult) (row : Row),
      lex "f.1 + 2 * x;" = .ok sampleTokens ∧
      ProgramResult.ofTokens sampleTokens (.plain 10) = .ok program ∧
      row.statement = ⟨.value, ⟨0, 7⟩, ⟨0, 8⟩⟩ ∧
      treeLines "f.1 + 2 * x;" (.plain 10) =
        .ok (unlines (statementTrees sampleTokens program.statements [row.tree])) ∧
      groupedLines "f.1 + 2 * x;" (.plain 10) = .ok (unlines [row.line]) ∧
      ∃ enough, ∀ most, enough ≤ most →
        expressionLine row.line (.plain most) = .ok (row.tree ++ "\n") := by
  have hlex : lex "f.1 + 2 * x;" = .ok sampleTokens := by decide +kernel
  have hvalues : (ProgramResult.ofTokens sampleTokens (.plain 10)).map
      (fun program => program.statements.filter Statement.isValue) =
        .ok [⟨.value, ⟨0, 7⟩, ⟨0, 8⟩⟩] := by
    decide +kernel
  cases hprogram : ProgramResult.ofTokens sampleTokens (.plain 10) with
  | error e =>
      rw [hprogram] at hvalues
      cases hvalues
  | ok program =>
      rw [hprogram, Except.map, Except.ok.injEq] at hvalues
      obtain ⟨rows, hstatements, htrees, hlines, hrows⟩ := exists_rows_reread "f.1 + 2 * x;"
        sampleTokens program 10 10 hlex hprogram (by decide)
      rw [hvalues] at hstatements
      obtain ⟨row, rfl, hrow⟩ := List.map_eq_singleton_iff.mp hstatements
      have hreal : ¬ HidesReal sampleTokens row.statement.range := by
        rw [hrow]
        decide +kernel
      exact ⟨program, row, hlex, rfl, hrow, htrees, hlines,
        (hrows row (List.mem_singleton.mpr rfl)).2 hreal⟩

/-- A member access to the member `5` of `1` is grouped, but its line is the real number. -/
theorem expressionLine_hidden_real :
    treeLines "1 . 5;" (.plain 10) = .ok "1:1 member_access(1, 5)\n" ∧
      groupedLines "1 . 5;" (.plain 10) = .ok "(1.5)\n" ∧
      ∀ most, 0 < most → expressionLine "(1.5)" (.plain most) = .ok "1.5\n" := by
  refine ⟨by decide +kernel, by decide +kernel, fun most hmost => ?_⟩
  let tokens : Array Token :=
    #[⟨.punctuation .lparen, "(", ⟨0, 1⟩, 1, 1, 1⟩, ⟨.real, "1.5", ⟨1, 4⟩, 1, 2, 3⟩,
      ⟨.punctuation .rparen, ")", ⟨4, 5⟩, 1, 5, 1⟩, ⟨.eof, "", ⟨5, 5⟩, 1, 6, 1⟩]
  have hlex : lex "(1.5)" = .ok tokens := by decide +kernel
  have hp : (Phrase.group .paren [.leaf .real]).Accepted tokens most (bodyRange tokens) :=
    ⟨⟨⟨rfl, ⟨rfl, trivial⟩, rfl⟩, rfl⟩, ⟨trivial, trivial⟩, ⟨fun _ => rfl, trivial, trivial⟩, hmost⟩
  rw [expressionLine_of_accepted hlex hp]
  decide +kernel

end Report

end ExprFront
