import ExprFront.Arena.Printer
import ExprFront.Program

/-!
# Reports

The texts that the commands print: one line for each token, statement or scope.
-/

namespace ExprFront.Report

/-- Lines, each with a line break after it. -/
def unlines (lines : List String) : String := String.join (lines.map (· ++ "\n"))

/-- Line and column of a token. -/
def place (t : Token) : String := placeText t.line t.column

/-- One line for each token, the end mark included. -/
def tokenLines (source : String) : Except ParseError String := do
  let tokens ← lexSource source
  return unlines (tokens.toList.map Token.text)

/-- Where a statement starts. -/
def statementPlace (tokens : Array Token) (statement : Statement) : String :=
  match tokens[statement.scope.start]? with
  | some t => place t
  | none => ""

/-- One line for each statement: the tree of a value statement, taken from the front of the given
trees, or a note that a directive is passed over. -/
def statementTrees (tokens : Array Token) : List Statement → List String → List String
  | [], _ => []
  | statement :: more, trees =>
      let start := statementPlace tokens statement
      match statement.kind, trees with
      | .directive d, trees =>
          (start ++ " " ++ d.marked ++ " (skipped)") :: statementTrees tokens more trees
      | .value, tree :: trees => (start ++ " " ++ tree) :: statementTrees tokens more trees
      | .value, [] => statementTrees tokens more []

/-- The trees of a program's statements. -/
def treeLines (source : String) (config : Config) : Except ParseError String := do
  let tokens ← lexSource source
  let program ← ProgramResult.ofTokens tokens config
  let trees := (program.arena.children program.root).map (program.arena.sexpr tokens)
  return unlines (statementTrees tokens program.statements trees)

/-- The grouped form of each value statement. -/
def groupedStatements (tokens : Array Token) (limit : Nat) :
    List Statement → Except ParseError (List String)
  | [] => .ok []
  | statement :: more =>
      match statement.kind with
      | .directive _ => groupedStatements tokens limit more
      | .value => do
          let grouped ← groupTokens tokens statement.range limit
          let lines ← groupedStatements tokens limit more
          return grouped.text :: lines

/-- One grouped line for each value statement. -/
def groupedLines (source : String) (config : Config) : Except ParseError String := do
  let tokens ← lexSource source
  let statements ← liftScope (Statement.split tokens (bodyRange tokens))
  let lines ← groupedStatements tokens config.limit statements
  return unlines lines

/-- The line of a statement: where it starts, its kind and its tokens. -/
def statementLine (tokens : Array Token) (statement : Statement) : String :=
  "statement " ++ statementPlace tokens statement ++ " " ++ statement.kind.text ++ " " ++
    literalsText tokens statement.range

/-- The line of a bracket scope: its kind, where it starts and ends, and the tokens inside. -/
def scopeLine (tokens : Array Token) (opener : Token) (b : Bracket) (scope : Scope) : String :=
  let closer := match tokens[scope.stop - 1]? with
    | some t => place t
    | none => ""
  b.describe ++ " " ++ place opener ++ ".." ++ closer ++ " " ++ literalsText tokens scope.interior

/-- The lines of the bracket scopes that open at the given tokens. -/
def scopesAt (tokens : Array Token) (stop : Nat) : List Nat → Except ParseError (List String)
  | [] => .ok []
  | index :: more =>
      match tokens[index]? with
      | none => scopesAt tokens stop more
      | some t =>
          match t.kind.opens with
          | none => scopesAt tokens stop more
          | some b => do
              let scope ← liftScope (Scope.matching tokens ⟨index, stop⟩ b)
              let lines ← scopesAt tokens stop more
              return scopeLine tokens t b scope :: lines

/-- The statements of a program and then its bracket scopes in source order. -/
def scopeLines (source : String) : Except ParseError String := do
  let tokens ← lexSource source
  let range := bodyRange tokens
  let statements ← liftScope (Statement.split tokens range)
  let scopes ← scopesAt tokens range.stop (List.range range.stop)
  return unlines (statements.map (statementLine tokens) ++ scopes)

/-- The tree of one expression. -/
def expressionLine (source : String) (config : Config) : Except ParseError String := do
  let (tokens, parsed) ← ExpressionResult.ofSource source config
  return parsed.arena.sexpr tokens parsed.root ++ "\n"

end ExprFront.Report
