import ExprFront.Proofs.Session.Faultless
import ExprFront.Report

/-!
# Reports without faults

A report looks up where statements and scopes start and end, takes the literals
of ranges, and writes out the nodes of trees. `Guarded` has the reports with a
fault where a look-up fails or a range is not one of the tokens. They are the
reports of the library: statements and scopes lie within the tokens, and the
trees of a program are well-formed trees of its arena.
-/

namespace ExprFront

namespace Guarded

variable {tokens : Array Token}

/-! ## Literals and trees -/

/-- The literals of a range of tokens, which has to lie within them. -/
def literalsText (tokens : Array Token) (range : TokenRange) : Except Fault String :=
  if range.start ≤ range.stop ∧ range.stop ≤ tokens.size then
    .ok (ExprFront.literalsText tokens range)
  else .error (.missingToken range.stop)

theorem literalsText_eq
    {range : TokenRange} (h : range.Within tokens) :
    literalsText tokens range = .ok (ExprFront.literalsText tokens range) :=
  if_pos ⟨h.start_le, h.stop_le⟩

/-- The subtree of a node as nested applications, down to so many levels. -/
def sexprWithin (a : Arena) (tokens : Array Token) : Nat → NodeId → Except Fault String
  | 0, _ => .error .exhausted
  | levels + 1, id =>
      match a.node? id with
      | none => .error (.missingNode id)
      | some n =>
          if n.kind.isLeaf then literalsText tokens n.range
          else do
            let texts ← n.children.mapM (sexprWithin a tokens levels)
            return n.kind.name ++ "(" ++ ", ".intercalate texts ++ ")"

/-- The subtree of a node as nested applications. -/
def sexpr (a : Arena) (tokens : Array Token) (id : NodeId) : Except Fault String :=
  sexprWithin a tokens a.size id

theorem mapM_eq_ok
    {α β : Type} {items : List α} {f : α → Except Fault β} {g : α → β}
    (h : ∀ a ∈ items, f a = .ok (g a)) : items.mapM f = .ok (items.map g) := by
  induction items with
  | nil => rfl
  | cons a items ih =>
      rw [List.mapM_cons, h a List.mem_cons_self, ih fun b hb => h b (List.mem_cons_of_mem a hb)]
      rfl

end Guarded

theorem Tree.WellFormed.within_of_isLeaf
    {tokens : Array Token} {kind : NodeKind} {range : TokenRange} {ts : List Tree}
    (h : (node kind range ts).WellFormed) (hkind : kind.isLeaf = true)
    (hstop : range.stop ≤ tokens.size) : range.Within tokens := by
  have hlength := h.2.1 hkind
  simp only [TokenRange.length] at hlength
  exact ⟨by omega, hstop⟩

namespace Guarded

variable {tokens : Array Token}

/-- The plot of a well-formed tree is written without a fault. -/
theorem sexprWithin_eq
    {a : Arena} {parent : Option NodeId} {p : Plot} {levels : Nat} (h : a.Bears parent p)
    (hwell : p.tree.WellFormed) (hstop : p.range.stop ≤ tokens.size)
    (hlevels : p.ids.length ≤ levels) :
    sexprWithin a tokens levels p.root = .ok (a.sexprWithin tokens levels p.root) := by
  induction p generalizing parent levels with
  | node id kind range ps ih =>
      obtain ⟨hroot, hps⟩ := Arena.bears_node_iff.mp h
      rw [Plot.ids, List.length_cons] at hlevels
      obtain ⟨levels, rfl⟩ : ∃ less, levels = less + 1 := ⟨levels - 1, by omega⟩
      rw [Plot.tree] at hwell
      rw [Plot.root_node, sexprWithin, Arena.sexprWithin, hroot]
      dsimp only
      split
      · rename_i hleaf
        exact literalsText_eq (hwell.within_of_isLeaf hleaf hstop)
      · have hchildren : ∀ child ∈ ps.map Plot.root, sexprWithin a tokens levels child =
            .ok (a.sexprWithin tokens levels child) := by
          intro child hchild
          obtain ⟨p, hp, rfl⟩ := List.mem_map.mp hchild
          have hlength := Plot.length_ids_le_flatMap hp
          obtain ⟨hinside, hwell⟩ := hwell.2.2.of_mem (List.mem_map_of_mem hp)
          rw [Arena.range_tree, TokenRange.contains_iff] at hinside
          exact ih p hp (hps p hp) hwell (Nat.le_trans hinside.2 hstop) (by omega)
        rw [mapM_eq_ok hchildren]
        rfl

/-! ## Statements -/

/-- Where a statement starts. -/
def statementPlace (tokens : Array Token) (statement : Statement) : Except Fault String :=
  (token tokens statement.scope.start).map Report.place

theorem statementPlace_eq
    {statement : Statement} {range : TokenRange} (h : statement.Within tokens range) :
    statementPlace tokens statement = .ok (Report.statementPlace tokens statement) := by
  have hlength := h.length_ge
  have hsize := h.size_ge
  obtain ⟨t, hsome, htoken⟩ := exists_token (by omega : statement.scope.start < tokens.size)
  rw [statementPlace, Report.statementPlace, htoken, hsome]
  rfl

/-- One line for each statement, the trees of value statements taken from the front. -/
def statementTrees (tokens : Array Token) :
    List Statement → List String → Except Fault (List String)
  | [], _ => .ok []
  | statement :: more, trees =>
      match statementPlace tokens statement with
      | .error f => .error f
      | .ok start =>
          match statement.kind, trees with
          | .directive d, trees =>
              (statementTrees tokens more trees).map
                ((start ++ " " ++ d.marked ++ " (skipped)") :: ·)
          | .value, tree :: trees =>
              (statementTrees tokens more trees).map ((start ++ " " ++ tree) :: ·)
          | .value, [] => statementTrees tokens more []

theorem statementTrees_eq
    {range : TokenRange} {statements : List Statement}
    (h : ∀ statement ∈ statements, statement.Within tokens range) (trees : List String) :
    statementTrees tokens statements trees =
      .ok (Report.statementTrees tokens statements trees) := by
  induction statements generalizing trees with
  | nil => rfl
  | cons statement more ih =>
      obtain ⟨hstatement, hmore⟩ := List.forall_mem_cons.mp h
      cases hkind : statement.kind with
      | directive d =>
          simp only [statementTrees, Report.statementTrees, statementPlace_eq hstatement, hkind,
            ih hmore, Except.map]
      | value =>
          cases trees with
          | nil =>
              simp only [statementTrees, Report.statementTrees, statementPlace_eq hstatement,
                hkind, ih hmore]
          | cons tree trees =>
              simp only [statementTrees, Report.statementTrees, statementPlace_eq hstatement,
                hkind, ih hmore, Except.map]

/-- The line of a statement. -/
def statementLine (tokens : Array Token) (statement : Statement) : Except Fault String := do
  let start ← statementPlace tokens statement
  let text ← literalsText tokens statement.range
  return "statement " ++ start ++ " " ++ statement.kind.text ++ " " ++ text

theorem statementLine_eq
    {statement : Statement} {range : TokenRange} (h : statement.Within tokens range) :
    statementLine tokens statement = .ok (Report.statementLine tokens statement) := by
  rw [statementLine, statementPlace_eq h, literalsText_eq h.range_within]
  rfl

/-! ## Scopes -/

/-- The line of a bracket scope. -/
def scopeLine (tokens : Array Token) (opener : Token) (b : Bracket) (scope : Scope) :
    Except Fault String := do
  let closer ← token tokens (scope.stop - 1)
  let text ← literalsText tokens scope.interior
  return b.describe ++ " " ++ Report.place opener ++ ".." ++ Report.place closer ++ " " ++ text

theorem scopeLine_eq
    {start stop : Nat} {b : Bracket} {scope : Scope}
    (h : Scope.matching tokens ⟨start, stop⟩ b = .ok scope) (opener : Token) :
    scopeLine tokens opener b scope = .ok (Report.scopeLine tokens opener b scope) := by
  have hbounds := Scope.bounds_of_matching h
  obtain ⟨closer, hsome, htoken⟩ := exists_token (by omega : scope.stop - 1 < tokens.size)
  have hinterior : scope.interior.Within tokens :=
    ⟨by simp only [Scope.interior]; omega, by simp only [Scope.interior]; omega⟩
  rw [scopeLine, htoken, literalsText_eq hinterior, Report.scopeLine, hsome]
  rfl

/-- The lines of the bracket scopes that open at the given tokens. -/
def scopesAt (tokens : Array Token) (stop : Nat) : List Nat → Except ParseError (List String)
  | [] => .ok []
  | index :: more =>
      match token tokens index with
      | .error f => .error (.fault f)
      | .ok t =>
          match t.kind.opens with
          | none => scopesAt tokens stop more
          | some b =>
              match Scope.matching tokens ⟨index, stop⟩ b with
              | .error e => .error (.scope e)
              | .ok scope =>
                  match scopeLine tokens t b scope with
                  | .error f => .error (.fault f)
                  | .ok line => (scopesAt tokens stop more).map (line :: ·)

theorem scopesAt_eq
    {stop : Nat} {indices : List Nat} (h : ∀ index ∈ indices, index < tokens.size) :
    scopesAt tokens stop indices = Report.scopesAt tokens stop indices := by
  induction indices with
  | nil => rfl
  | cons index more ih =>
      obtain ⟨hindex, hmore⟩ := List.forall_mem_cons.mp h
      obtain ⟨t, hsome, htoken⟩ := exists_token hindex
      rw [scopesAt, Report.scopesAt, htoken, hsome]
      dsimp only
      cases t.kind.opens with
      | none => exact ih hmore
      | some b =>
          dsimp only
          cases hscope : Scope.matching tokens ⟨index, stop⟩ b with
          | error e => rfl
          | ok scope =>
              dsimp only
              rw [scopeLine_eq hscope, ih hmore]
              cases Report.scopesAt tokens stop more <;> rfl

/-! ## Whole reports -/

/-- The children of a node, which has to be there. -/
def children (a : Arena) (id : NodeId) : Except Fault (List NodeId) :=
  match a.node? id with
  | some n => .ok n.children
  | none => .error (.missingNode id)

/-- One line for each statement of a program. -/
def programLines (tokens : Array Token) (program : ProgramResult) :
    Except Fault (List String) := do
  let ids ← children program.arena program.root
  let trees ← ids.mapM (sexpr program.arena tokens)
  statementTrees tokens program.statements trees

/-- The trees of a program's statements. -/
def treeLines (source : String) (config : Config) : Except ParseError String := do
  let tokens ← lexSource source
  let program ← ProgramResult.ofTokens tokens config
  let lines ← (programLines tokens program).mapError .fault
  return Report.unlines lines

/-- The statements of a program and then its bracket scopes in source order. -/
def scopeLines (source : String) : Except ParseError String := do
  let tokens ← lexSource source
  let range := bodyRange tokens
  let statements ← liftScope (Statement.split tokens range)
  let lines ← (statements.mapM (statementLine tokens)).mapError .fault
  let scopes ← scopesAt tokens range.stop (List.range range.stop)
  return Report.unlines (lines ++ scopes)

end Guarded

theorem bodyRange_within
    (tokens : Array Token) : (bodyRange tokens).Within tokens := by
  unfold bodyRange
  split
  · split
    · exact ⟨Nat.zero_le _, Nat.sub_le _ _⟩
    · exact ⟨Nat.zero_le _, Nat.le_refl _⟩
  · exact ⟨Nat.zero_le _, Nat.zero_le _⟩

/-- The statements of a program are those of its body, and its draft is in the arena, with the
content of each value statement. -/
theorem exists_drafts_of_ofTokens
    {tokens : Array Token} {config : Config} {program : ProgramResult}
    (h : ProgramResult.ofTokens tokens config = .ok program) :
    Statement.split tokens (bodyRange tokens) = .ok program.statements ∧
      ∃ (s : Session) (last : Nat) (ps : List Plot), s.arena = program.arena ∧
        s.Drafts program.root (bodyRange tokens) last ps ∧
        List.Forall₂ (fun statement p => ∃ t,
          (Session.start tokens config).content statement.range = .ok t ∧
            p.tree = config.finish (.node .expression statement.range [t]))
          (program.statements.filter Statement.isValue) ps := by
  unfold ProgramResult.ofTokens at h
  dsimp only at h
  split at h
  · cases h
  · rename_i statements hsplit
    split at h
    · rename_i root s hprogram
      cases h
      obtain ⟨rfl, last, ps, hdrafts, hcontents⟩ :=
        ((Session.start tokens config).drafts_nil _).run_contents
          (Statement.inOrder_of_splitFrom hsplit) hprogram
      exact ⟨hsplit, s, last, ps, rfl, hdrafts, hcontents⟩
    · cases h

/-- The node of a program has one child for each value statement, in order, with the tree of what
is read there. -/
theorem forall₂_trees_of_ofTokens
    {tokens : Array Token} {config : Config} {program : ProgramResult}
    (h : ProgramResult.ofTokens tokens config = .ok program) :
    ∃ node, program.arena.node? program.root = some node ∧ node.kind = .program ∧
      List.Forall₂ (fun statement id => ∃ t,
        (Session.start tokens config).content statement.range = .ok t ∧
          program.arena.tree? id =
            some (config.finish (.node .expression statement.range [t])))
        (program.statements.filter Statement.isValue) node.children := by
  obtain ⟨-, s, last, ps, harena, hdrafts, hcontents⟩ := exists_drafts_of_ofTokens h
  obtain ⟨hroot, htrees⟩ := hdrafts.children_eq
  rw [harena] at hroot htrees
  refine ⟨_, hroot, rfl, ?_⟩
  rw [List.forall₂_map_right_iff]
  have hboth := ((List.forall₂_and_left _ _).mpr ⟨htrees, hcontents.flip⟩).flip
  refine hboth.imp ?_
  rintro statement p ⟨htree, t, hcontent, heq⟩
  exact ⟨t, hcontent, by rw [htree, heq]⟩

namespace Guarded

theorem programLines_eq
    {tokens : Array Token} {config : Config} {program : ProgramResult}
    (h : ProgramResult.ofTokens tokens config = .ok program) :
    programLines tokens program =
      .ok (Report.statementTrees tokens program.statements
        ((program.arena.children program.root).map (program.arena.sexpr tokens))) := by
  obtain ⟨hsplit, s, last, ps, harena, hdrafts, -⟩ := exists_drafts_of_ofTokens h
  have hbears := hdrafts.bears
  rw [harena] at hbears
  obtain ⟨hroot, hps⟩ := Arena.bears_node_iff.mp hbears
  have htrees : ∀ id ∈ ps.map Plot.root,
      sexpr program.arena tokens id = .ok (program.arena.sexpr tokens id) := by
    intro id hid
    obtain ⟨p, hp, rfl⟩ := List.mem_map.mp hid
    obtain ⟨hinside, hwell⟩ := hdrafts.arranged.of_mem (List.mem_map_of_mem hp)
    rw [Arena.range_tree, TokenRange.contains_iff] at hinside
    exact sexprWithin_eq (hps p hp) hwell
      (Nat.le_trans hinside.2 (bodyRange_within tokens).stop_le)
      ((hps p hp).length_ids_le (hdrafts.nodup_of_mem hp))
  simp only [programLines, children, Arena.children, hroot, bind, Except.bind,
    mapM_eq_ok htrees]
  exact statementTrees_eq (Statement.within_of_split hsplit) _

/-- Every look-up in the report of the trees succeeds. -/
theorem treeLines_eq
    (source : String) (config : Config) :
    treeLines source config = Report.treeLines source config := by
  unfold treeLines Report.treeLines
  cases lexSource source with
  | error e => rfl
  | ok tokens =>
      simp only [bind, Except.bind]
      cases hprogram : ProgramResult.ofTokens tokens config with
      | error e => rfl
      | ok program =>
          simp only [programLines_eq hprogram]
          rfl

/-- Every look-up in the report of the scopes succeeds. -/
theorem scopeLines_eq
    (source : String) : scopeLines source = Report.scopeLines source := by
  unfold scopeLines Report.scopeLines
  cases lexSource source with
  | error e => rfl
  | ok tokens =>
      have hstop := (bodyRange_within tokens).stop_le
      have hscopes : scopesAt tokens (bodyRange tokens).stop (List.range (bodyRange tokens).stop) =
          Report.scopesAt tokens (bodyRange tokens).stop (List.range (bodyRange tokens).stop) := by
        apply scopesAt_eq
        intro index hindex
        exact Nat.lt_of_lt_of_le (List.mem_range.mp hindex) hstop
      simp only [bind, Except.bind, hscopes]
      cases hsplit : Statement.split tokens (bodyRange tokens) with
      | error e => rfl
      | ok statements =>
          have hwithin := Statement.within_of_split hsplit
          have hlines : statements.mapM (statementLine tokens) =
              .ok (statements.map (Report.statementLine tokens)) :=
            mapM_eq_ok fun statement hmem => statementLine_eq (hwithin statement hmem)
          simp only [liftScope, hlines]
          rfl

end Guarded

/-! ## Values or refusals -/

theorem faultless_lexSource
    (source : String) : Faultless (lexSource source) := by
  unfold lexSource
  split
  · exact faultless_ok _
  · exact faultless_of_isRefusal fun f => by simp

theorem ProgramResult.faultless_ofTokens
    (tokens : Array Token) (config : Config) :
    Faultless (ProgramResult.ofTokens tokens config) := by
  unfold ProgramResult.ofTokens
  dsimp only
  split
  · exact faultless_of_isRefusal (isRefusal_scope _)
  · rename_i statements hsplit
    have hprogram := Session.faultless_program (s := .start tokens config)
      (bodyRange_within tokens).stop_le hsplit
    split
    · exact faultless_ok _
    · rename_i e s hanswer
      exact faultless_of_isRefusal (hprogram.isRefusal (by rw [hanswer]))

namespace Report

theorem faultless_treeLines
    (source : String) (config : Config) : Faultless (treeLines source config) := by
  refine (faultless_lexSource source).bind fun tokens _ => ?_
  refine (ProgramResult.faultless_ofTokens tokens config).bind fun program _ => ?_
  exact faultless_ok _

theorem faultless_groupedStatements
    {tokens : Array Token} {range : TokenRange} {statements : List Statement}
    (h : ∀ statement ∈ statements, statement.Within tokens range) (limit : Nat) :
    Faultless (groupedStatements tokens limit statements) := by
  induction statements with
  | nil => exact faultless_ok _
  | cons statement more ih =>
      obtain ⟨hstatement, hmore⟩ := List.forall_mem_cons.mp h
      rw [groupedStatements]
      split
      · exact ih hmore
      · refine (faultless_groupTokens hstatement.range_within.stop_le limit).bind fun _ _ => ?_
        exact (ih hmore).bind fun _ _ => faultless_ok _

theorem faultless_groupedLines
    (source : String) (config : Config) : Faultless (groupedLines source config) := by
  refine (faultless_lexSource source).bind fun tokens _ => ?_
  cases hsplit : Statement.split tokens (bodyRange tokens) with
  | error e => exact faultless_of_isRefusal (isRefusal_scope e)
  | ok statements =>
      have hgrouped := faultless_groupedStatements (Statement.within_of_split hsplit) config.limit
      exact hgrouped.bind fun _ _ => faultless_ok _

theorem faultless_scopesAt
    (tokens : Array Token) (stop : Nat) (indices : List Nat) :
    Faultless (scopesAt tokens stop indices) := by
  induction indices with
  | nil => exact faultless_ok _
  | cons index more ih =>
      rw [scopesAt]
      split
      · exact ih
      · split
        · exact ih
        · exact (faultless_liftScope _).bind fun _ _ => ih.bind fun _ _ => faultless_ok _

theorem faultless_scopeLines
    (source : String) : Faultless (scopeLines source) := by
  refine (faultless_lexSource source).bind fun tokens _ => ?_
  refine (faultless_liftScope _).bind fun statements _ => ?_
  exact (faultless_scopesAt tokens _ _).bind fun _ _ => faultless_ok _

end Report

end ExprFront
