import ExprFront.Session
import ExprFront.Token.Lexer

/-!
# Expressions and programs

The main entry points: from tokens, or from a text, to a syntax tree.
-/

namespace ExprFront

/-- An expression that was read. -/
structure ExpressionResult where
  arena : Arena
  root : NodeId
  /-- The index of the first token after the expression. -/
  next : Nat

/-- A program that was read. -/
structure ProgramResult where
  arena : Arena
  /-- The program node, with one child for each value statement. -/
  root : NodeId
  /-- All statements, those of directives included. -/
  statements : List Statement

/-- The expression that fills a range of tokens. -/
def ExpressionResult.ofTokens (tokens : Array Token) (range : TokenRange) (config : Config) :
    Except ParseError ExpressionResult :=
  match (Session.start tokens config).expression range with
  | (.ok root, s) => .ok ⟨s.arena, root, range.stop⟩
  | (.error e, _) => .error e

/-- The program that all tokens form. -/
def ProgramResult.ofTokens (tokens : Array Token) (config : Config) :
    Except ParseError ProgramResult :=
  let range := bodyRange tokens
  match Statement.split tokens range with
  | .error e => .error (.scope e)
  | .ok statements =>
      match (Session.start tokens config).program range statements with
      | (.ok root, s) => .ok ⟨s.arena, root, statements⟩
      | (.error e, _) => .error e

/-- The tokens of a text, with lexical errors among the errors of expressions. -/
def lexSource (source : String) : Except ParseError (Array Token) :=
  match lex source with
  | .ok tokens => .ok tokens
  | .error e => .error (.lexical e)

/-- The tokens of a text and the one expression that they form. -/
def ExpressionResult.ofSource (source : String) (config : Config) :
    Except ParseError (Array Token × ExpressionResult) := do
  let tokens ← lexSource source
  let parsed ← ExpressionResult.ofTokens tokens (bodyRange tokens) config
  return (tokens, parsed)

end ExprFront
