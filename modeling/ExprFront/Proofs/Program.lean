import ExprFront.Proofs.Report
import ExprFront.Proofs.Grouping.Regrouped
import ExprFront.Proofs.Token.Joined

/-!
# Programs, statement by statement

All statements of a program are read in one session and kept in one arena, but
none of them is read otherwise than alone: a session does not look at what it
has read before, and what it keeps is put behind it. So a program is read
exactly if each of its value statements is, its node has their trees in order,
and its error is that of the first one that is refused. The report of the trees
then has one line for each statement, with the tree of that very statement.
-/

namespace ExprFront

/-! ## One expression -/

namespace ExpressionResult

variable {tokens : Array Token} {range : TokenRange} {config : Config}

/-- What is read in a range is the result, below the node of the statement. -/
theorem exists_of_content
    {t : Tree} (h : (Session.start tokens config).content range = .ok t) :
    ∃ r, ofTokens tokens range config = .ok r ∧
      r.arena.tree? r.root = some (config.finish (.node .expression range [t])) := by
  have hdelivers := Session.expression_delivers h
  obtain ⟨q, arena, hanswer, -⟩ := Session.expression_delivers h
  exact ⟨⟨arena, q.root, range.stop⟩, by simp only [ofTokens, hanswer], hdelivers.tree?_eq hanswer⟩

theorem ofTokens_of_error
    {e : ParseError} (h : (Session.start tokens config).content range = .error e) :
    ofTokens tokens range config = .error e := by
  have herror := Session.expression_error h
  unfold ofTokens
  split
  · rename_i root after hanswer
    rw [hanswer] at herror
    cases herror
  · rename_i found after hanswer
    rw [hanswer] at herror
    cases herror
    rfl

/-- A result is what is read in the range. -/
theorem exists_content_of_ofTokens
    {r : ExpressionResult} (h : ofTokens tokens range config = .ok r) :
    ∃ t, (Session.start tokens config).content range = .ok t ∧
      r.arena.tree? r.root = some (config.finish (.node .expression range [t])) := by
  cases hcontent : (Session.start tokens config).content range with
  | ok t =>
      obtain ⟨found, hfound, htree⟩ := exists_of_content hcontent
      rw [h] at hfound
      cases hfound
      exact ⟨t, rfl, htree⟩
  | error e =>
      rw [ofTokens_of_error hcontent] at h
      cases h

/-- There is a result exactly if something is read. -/
theorem isOk_ofTokens
    (tokens : Array Token) (range : TokenRange) (config : Config) :
    (ofTokens tokens range config).isOk =
      ((Session.start tokens config).content range).isOk := by
  cases h : (Session.start tokens config).content range with
  | ok t =>
      obtain ⟨r, hr, -⟩ := exists_of_content h
      rw [hr]
      rfl
  | error e =>
      rw [ofTokens_of_error h]
      rfl

end ExpressionResult

/-! ## The statements of a program -/

/-- The error of a program is that of the first value statement in which nothing is read. -/
theorem Session.Drafts.run_error
    {s : Session} {range : TokenRange} {id : NodeId} {index : Nat} {ps : List Plot}
    {statements : List Statement} {e : ParseError} {after : Session}
    (h : s.Drafts id range index ps) (horder : Statement.InOrder range.stop index statements)
    (hanswer : programStatements id statements s = (.error e, after)) :
    ∃ earlier statement later,
      statements.filter Statement.isValue = earlier ++ statement :: later ∧
        (∀ other ∈ earlier, (s.content other.range).isOk = true) ∧
        s.content statement.range = .error e := by
  induction statements generalizing s index ps with
  | nil => cases hanswer
  | cons statement more ih =>
      obtain ⟨hindex, hle, hstop, hmore⟩ := horder
      rw [programStatements] at hanswer
      split at hanswer
      · rename_i d hkind
        have hdirective : statement.isValue = false := by rw [Statement.isValue, hkind]
        rw [List.filter_cons_of_neg (by simp [hdirective])]
        exact ih h (hmore.mono (Nat.le_trans hindex hle)) hanswer
      · rename_i hkind
        have hvalue : statement.isValue = true := by rw [Statement.isValue, hkind]
        rw [List.filter_cons_of_pos hvalue]
        split at hanswer
        · rename_i e' s₁ hexpression
          cases hanswer
          exact ⟨[], statement, more.filter Statement.isValue, rfl, by simp,
            content_of_expression_error hexpression⟩
        · rename_i child s₁ hexpression
          obtain ⟨arena, q, t, hpush, hsame, hdrafts, hcontent, -⟩ :=
            h.step_content hindex hle hstop hexpression
          rw [hpush] at hanswer
          dsimp only at hanswer
          rw [hsame] at hanswer hdrafts
          obtain ⟨earlier, refused, later, hsplit, hearlier, herror⟩ := ih hdrafts hmore hanswer
          refine ⟨statement :: earlier, refused, later, by rw [hsplit, List.cons_append], ?_,
            herror⟩
          rw [List.forall_mem_cons]
          exact ⟨by rw [hcontent]; rfl, hearlier⟩

namespace ProgramResult

variable {tokens : Array Token} {config : Config} {statements : List Statement}

/-- The node of a program has the tree that the expression of the statement has alone. -/
def Keeps (tokens : Array Token) (config : Config) (program : ProgramResult)
    (statement : Statement) (id : NodeId) : Prop :=
  ∃ r t, ExpressionResult.ofTokens tokens statement.range config = .ok r ∧
    r.arena.tree? r.root = some t ∧ program.arena.tree? id = some t

/-- The node of a program keeps its value statements in order. -/
theorem forall₂_keeps
    {program : ProgramResult} (hsplit : Statement.split tokens (bodyRange tokens) = .ok statements)
    (h : ofTokens tokens config = .ok program) :
    program.statements = statements ∧
      ∃ node, program.arena.node? program.root = some node ∧ node.kind = .program ∧
        List.Forall₂ (program.Keeps tokens config) (statements.filter Statement.isValue)
          node.children := by
  obtain ⟨hfound, -⟩ := exists_drafts_of_ofTokens h
  obtain rfl : program.statements = statements := Except.ok.inj (hfound.symm.trans hsplit)
  obtain ⟨node, hnode, hkind, htrees⟩ := forall₂_trees_of_ofTokens h
  refine ⟨rfl, node, hnode, hkind, htrees.imp ?_⟩
  rintro statement id ⟨t, hcontent, htree⟩
  obtain ⟨r, hr, hroot⟩ := ExpressionResult.exists_of_content hcontent
  exact ⟨r, _, hr, hroot, htree⟩

/-- The error of a program is that of its first value statement that is refused. -/
theorem exists_of_error
    {e : ParseError} (hsplit : Statement.split tokens (bodyRange tokens) = .ok statements)
    (h : ofTokens tokens config = .error e) :
    ∃ earlier statement later,
      statements.filter Statement.isValue = earlier ++ statement :: later ∧
        (∀ other ∈ earlier, (ExpressionResult.ofTokens tokens other.range config).isOk = true) ∧
        ExpressionResult.ofTokens tokens statement.range config = .error e := by
  unfold ofTokens at h
  simp only [hsplit] at h
  split at h
  · cases h
  · rename_i found after hprogram
    cases h
    obtain ⟨earlier, statement, later, hvalues, hearlier, herror⟩ :=
      ((Session.start tokens config).drafts_nil _).run_error
        (Statement.inOrder_of_splitFrom hsplit) hprogram
    refine ⟨earlier, statement, later, hvalues, fun other hother => ?_,
      ExpressionResult.ofTokens_of_error herror⟩
    rw [ExpressionResult.isOk_ofTokens]
    exact hearlier other hother

end ProgramResult

/-! ## Lines -/

theorem newline_not_mem_intercalate
    {separator : List Char} {texts : List (List Char)} (hseparator : '\n' ∉ separator)
    (h : ∀ text ∈ texts, '\n' ∉ text) : '\n' ∉ separator.intercalate texts := by
  induction texts with
  | nil => simp [List.intercalate]
  | cons text texts ih =>
      obtain ⟨htext, htexts⟩ := List.forall_mem_cons.mp h
      cases texts with
      | nil => simpa [List.intercalate] using htext
      | cons next texts =>
          have hrest := ih htexts
          rw [List.intercalate_cons_cons]
          simp [htext, hseparator, hrest]

theorem newline_not_mem_toString (n : Nat) : '\n' ∉ (toString n).toList := by
  rw [Nat.toString_eq_repr, Nat.toList_repr]
  intro hmem
  exact absurd (Nat.isDigit_of_mem_toDigits (by decide) (by decide) hmem) (by decide)

theorem NodeKind.newline_not_mem_name (kind : NodeKind) : '\n' ∉ kind.name.toList := by
  cases kind with
  | operation op => cases op <;> decide +kernel
  | specialObject o => cases o <;> decide +kernel
  | _ => decide +kernel

theorem newline_not_mem_literalsText
    {tokens : Array Token} (h : ∀ t ∈ tokens, '\n' ∉ t.literal.toList) (range : TokenRange) :
    '\n' ∉ (literalsText tokens range).toList := by
  rw [literalsText, String.toList_join, List.mem_flatMap]
  rintro ⟨literal, hliteral, hmem⟩
  obtain ⟨t, ht, rfl⟩ := List.mem_map.mp hliteral
  rw [Array.toList_extract, List.extract_eq_take_drop] at ht
  exact h t (Array.mem_toList_iff.mp (List.mem_of_mem_drop (List.mem_of_mem_take ht))) hmem

/-- A tree over tokens that stay on their lines is written on one line. -/
theorem Tree.newline_not_mem_sexpr
    {tokens : Array Token} (h : ∀ t ∈ tokens, '\n' ∉ t.literal.toList) (t : Tree) :
    '\n' ∉ (t.sexpr tokens).toList := by
  induction t with
  | node kind range ts ih =>
      rw [sexpr]
      split
      · exact newline_not_mem_literalsText h range
      · have hchildren : '\n' ∉ (", ".intercalate (sexprAll tokens ts)).toList := by
          rw [String.toList_intercalate, sexprAll_eq_map]
          refine newline_not_mem_intercalate (by decide) ?_
          simpa using ih
        simp only [String.toList_append, List.mem_append, not_or]
        exact ⟨⟨⟨kind.newline_not_mem_name, by decide⟩, hchildren⟩, by decide⟩

namespace Report

variable {source : String} {tokens : Array Token} {config : Config}

theorem newline_not_mem_place (t : Token) : '\n' ∉ (place t).toList := by
  simp only [place, placeText, String.toList_append, List.mem_append, not_or]
  exact ⟨⟨newline_not_mem_toString _, by decide⟩, newline_not_mem_toString _⟩

/-- The line starts with the place of the first token of the statement and goes on with the tree
of the expression that the statement is alone, or with the directive. -/
def Lists (tokens : Array Token) (config : Config) (statement : Statement) (line : String) : Prop :=
  ∃ first, tokens[statement.range.start]? = some first ∧
    match statement.kind with
    | .directive d => line = place first ++ " " ++ d.marked ++ " (skipped)"
    | .value => ∃ r, ExpressionResult.ofTokens tokens statement.range config = .ok r ∧
        line = place first ++ " " ++ r.arena.sexpr tokens r.root

theorem Lists.newline_not_mem
    {statement : Statement} {line : String} (h : Lists tokens config statement line)
    (hlex : lex source = .ok tokens) : '\n' ∉ line.toList := by
  obtain ⟨first, -, hline⟩ := h
  cases hkind : statement.kind with
  | directive d =>
      rw [hkind] at hline
      have hmarked : '\n' ∉ d.marked.toList := by cases d <;> decide
      simp only [hline, String.toList_append, List.mem_append, not_or]
      exact ⟨⟨⟨newline_not_mem_place first, by decide⟩, hmarked⟩, by decide⟩
  | value =>
      rw [hkind] at hline
      obtain ⟨r, hr, rfl⟩ := hline
      obtain ⟨t, -, htree⟩ := ExpressionResult.exists_content_of_ofTokens hr
      have hliterals : ∀ t ∈ tokens, '\n' ∉ t.literal.toList :=
        fun t ht => (isInline_of_lex hlex ht).newline_not_mem
      have htext := Tree.newline_not_mem_sexpr hliterals
        (config.finish (.node .expression statement.range [t]))
      rw [← Arena.sexpr_eq_of_tree? _ _ _ _ htree] at htext
      simp only [String.toList_append, List.mem_append, not_or]
      exact ⟨⟨newline_not_mem_place first, by decide⟩, htext⟩

/-- The trees of the value statements are listed with all statements. -/
theorem forall₂_lists
    {range : TokenRange} {statements : List Statement} {texts : List String}
    (hwithin : ∀ statement ∈ statements, statement.Within tokens range)
    (h : List.Forall₂ (fun statement text => ∃ r,
      ExpressionResult.ofTokens tokens statement.range config = .ok r ∧
        text = r.arena.sexpr tokens r.root) (statements.filter Statement.isValue) texts) :
    List.Forall₂ (Lists tokens config) statements (statementTrees tokens statements texts) := by
  induction statements generalizing texts with
  | nil => exact .nil
  | cons statement more ih =>
      obtain ⟨hstatement, hmore⟩ := List.forall_mem_cons.mp hwithin
      have hlength := hstatement.length_ge
      have hsize := hstatement.size_ge
      have hfirst : tokens[statement.scope.start]? = some tokens[statement.scope.start] :=
        Array.getElem?_eq_getElem (by omega)
      have hplace : statementPlace tokens statement = place tokens[statement.scope.start] := by
        simp only [statementPlace, hfirst]
      have hstart : tokens[statement.range.start]? = some tokens[statement.scope.start] := by
        rw [hstatement.range_eq]
        exact hfirst
      cases hkind : statement.kind with
      | directive d =>
          have hdirective : statement.isValue = false := by rw [Statement.isValue, hkind]
          rw [List.filter_cons_of_neg (by simp [hdirective])] at h
          simp only [statementTrees, hkind, hplace]
          refine .cons ⟨_, hstart, ?_⟩ (ih hmore h)
          rw [hkind]
      | value =>
          have hvalue : statement.isValue = true := by rw [Statement.isValue, hkind]
          rw [List.filter_cons_of_pos hvalue] at h
          cases h with
          | cons hhead htail =>
              obtain ⟨r, hr, rfl⟩ := hhead
              simp only [statementTrees, hkind, hplace]
              refine .cons ⟨_, hstart, ?_⟩ (ih hmore htail)
              rw [hkind]
              exact ⟨r, hr, rfl⟩

/-- The report of the trees lists each statement on a line of its own. -/
theorem exists_lines
    {statements : List Statement} {program : ProgramResult}
    (hsplit : Statement.split tokens (bodyRange tokens) = .ok statements)
    (hlex : lex source = .ok tokens)
    (hprogram : ProgramResult.ofTokens tokens config = .ok program) :
    ∃ lines, treeLines source config = .ok (unlines lines) ∧
      List.Forall₂ (Lists tokens config) statements lines ∧
      ∀ line ∈ lines, '\n' ∉ line.toList := by
  obtain ⟨rfl, node, hnode, -, hkeeps⟩ := ProgramResult.forall₂_keeps hsplit hprogram
  have htexts : List.Forall₂ (fun statement text => ∃ r,
      ExpressionResult.ofTokens tokens statement.range config = .ok r ∧
        text = r.arena.sexpr tokens r.root) (program.statements.filter Statement.isValue)
      (node.children.map (program.arena.sexpr tokens)) := by
    rw [List.forall₂_map_right_iff]
    refine hkeeps.imp ?_
    rintro statement id ⟨r, t, hr, hroot, htree⟩
    refine ⟨r, hr, ?_⟩
    rw [Arena.sexpr_eq_of_tree? _ _ _ _ hroot, Arena.sexpr_eq_of_tree? _ _ _ _ htree]
  have hlists := forall₂_lists (Statement.within_of_split hsplit) htexts
  refine ⟨_, ?_, hlists, ?_⟩
  · simp only [treeLines, lexSource, hlex, bind, Except.bind, hprogram, pure, Except.pure,
      Arena.children, hnode]
  · intro line hmem
    obtain ⟨statement, -, hline⟩ := exists_mem_of_forall₂ hlists.flip hmem
    exact Lists.newline_not_mem hline hlex

end Report

/-- A program is read exactly if each of its value statements is. Its node then has their trees in
order, and otherwise the error is that of the first value statement that is refused. The report of
the trees has one line for each statement. -/
theorem ProgramResult.ofTokens_statementwise
    (tokens : Array Token) (config : Config) (statements : List Statement)
    (hsplit : Statement.split tokens (bodyRange tokens) = .ok statements) :
    ((ofTokens tokens config).isOk = true ↔
      ∀ statement ∈ statements.filter Statement.isValue,
        (ExpressionResult.ofTokens tokens statement.range config).isOk = true) ∧
    (∀ program, ofTokens tokens config = .ok program →
      program.statements = statements ∧
      ∃ node, program.arena.node? program.root = some node ∧ node.kind = .program ∧
        List.Forall₂ (program.Keeps tokens config) (statements.filter Statement.isValue)
          node.children) ∧
    (∀ e, ofTokens tokens config = .error e →
      ∃ earlier statement later,
        statements.filter Statement.isValue = earlier ++ statement :: later ∧
          (∀ other ∈ earlier,
            (ExpressionResult.ofTokens tokens other.range config).isOk = true) ∧
          ExpressionResult.ofTokens tokens statement.range config = .error e) ∧
    ∀ source program, lex source = .ok tokens → ofTokens tokens config = .ok program →
      ∃ lines, Report.treeLines source config = .ok (Report.unlines lines) ∧
        List.Forall₂ (Report.Lists tokens config) statements lines ∧
        ∀ line ∈ lines, '\n' ∉ line.toList := by
  refine ⟨?_, fun program => forall₂_keeps hsplit, fun e => exists_of_error hsplit,
    fun source program hlex => Report.exists_lines hsplit hlex⟩
  constructor
  · intro hok
    cases hprogram : ofTokens tokens config with
    | error e =>
        rw [hprogram] at hok
        cases hok
    | ok program =>
        obtain ⟨-, node, -, -, hkeeps⟩ := forall₂_keeps hsplit hprogram
        intro statement hmem
        obtain ⟨id, -, r, t, hr, -⟩ := exists_mem_of_forall₂ hkeeps hmem
        rw [hr]
        rfl
  · intro hall
    cases hprogram : ofTokens tokens config with
    | ok program => rfl
    | error e =>
        obtain ⟨earlier, statement, later, hvalues, -, herror⟩ := exists_of_error hsplit hprogram
        have hok := hall statement (by simp [hvalues])
        rw [herror] at hok
        cases hok

/-- The tokens of `x;#use y;-z;`. -/
def ProgramResult.sampleTokens : Array Token :=
  #[⟨.identifier, "x", ⟨0, 1⟩, 1, 1, 1⟩, ⟨.punctuation .semicolon, ";", ⟨1, 2⟩, 1, 2, 1⟩,
    ⟨.directive .useNames, "#use", ⟨2, 6⟩, 1, 3, 2⟩, ⟨.identifier, "y", ⟨7, 8⟩, 1, 8, 1⟩,
    ⟨.punctuation .semicolon, ";", ⟨8, 9⟩, 1, 9, 1⟩, ⟨.operator .minus, "-", ⟨9, 10⟩, 1, 10, 1⟩,
    ⟨.identifier, "z", ⟨10, 11⟩, 1, 11, 1⟩, ⟨.punctuation .semicolon, ";", ⟨11, 12⟩, 1, 12, 1⟩,
    ⟨.eof, "", ⟨12, 12⟩, 1, 13, 1⟩]

/-- A directive stands between the two value statements. -/
theorem ProgramResult.ofTokens_statementwise_sample :
    ∃ statements program lines,
      Statement.split sampleTokens (bodyRange sampleTokens) = .ok statements ∧
      statements.map Statement.isValue = [true, false, true] ∧
      ofTokens sampleTokens .standard = .ok program ∧
      Report.treeLines "x;#use y;-z;" .standard = .ok (Report.unlines lines) ∧
      List.Forall₂ (Report.Lists sampleTokens .standard) statements lines := by
  have hsplit : Statement.split sampleTokens (bodyRange sampleTokens) =
      .ok [⟨.value, ⟨0, 1⟩, ⟨0, 2⟩⟩, ⟨.directive .useNames, ⟨2, 4⟩, ⟨2, 5⟩⟩,
        ⟨.value, ⟨5, 7⟩, ⟨5, 8⟩⟩] := by
    decide +kernel
  have hlex : lex "x;#use y;-z;" = .ok sampleTokens := by decide +kernel
  have hok : (ofTokens sampleTokens .standard).isOk = true := by decide +kernel
  cases hprogram : ofTokens sampleTokens .standard with
  | error e =>
      rw [hprogram] at hok
      cases hok
  | ok program =>
      obtain ⟨-, -, -, hlines⟩ := ofTokens_statementwise sampleTokens .standard _ hsplit
      obtain ⟨lines, hreport, hlists, -⟩ := hlines _ program hlex hprogram
      exact ⟨_, program, lines, hsplit, rfl, rfl, hreport, hlists⟩

end ExprFront
