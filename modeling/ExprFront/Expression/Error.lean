import ExprFront.Fault
import ExprFront.Scope.Error
import ExprFront.Token.LexError

/-!
# Errors of expressions

What can go wrong between a text and its syntax tree: the text has no tokens, a
scope does not resolve, the tokens form no expression, or they nest too deep.
-/

namespace ExprFront

/-- What is wrong with the tokens of an expression. -/
inductive Misplacement where
  | invalidStart
  | missingOperand
  | emptyOperand
  | operandAfterOperand
  | prefixAfterOperand
  | nonAssociative
  | invalidToken
deriving DecidableEq

/-- The misplacement in words. -/
def Misplacement.text : Misplacement → String
  | invalidStart => "invalid token at start of expression"
  | missingOperand => "operator missing operand"
  | emptyOperand => "empty operand"
  | operandAfterOperand => "operand after operand"
  | prefixAfterOperand => "prefix operator after operand"
  | nonAssociative => "non-associative operator chained"
  | invalidToken => "invalid token in expression"

/-- The part of the grammar that was being read. -/
inductive Production where
  | expression
  | primary
  | subexpression
  | arguments
  | indexArguments
  | typeArguments
  | listLiteral
  | initializerList
  | grouping
deriving DecidableEq

/-- The part of the grammar in words. -/
def Production.text : Production → String
  | expression => "expression"
  | primary => "primary"
  | subexpression => "subexpression"
  | arguments => "arguments"
  | indexArguments => "index arguments"
  | typeArguments => "type arguments"
  | listLiteral => "list literal"
  | initializerList => "initializer list"
  | grouping => "parenthesizer"

/-- A misplaced token. -/
structure ExpressionError where
  kind : Misplacement
  production : Production
  spot : Spot
deriving DecidableEq

namespace ExpressionError

/-- The error at a token index. -/
def atIndex (tokens : Array Token) (kind : Misplacement) (production : Production) (index : Nat) :
    ExpressionError :=
  ⟨kind, production, .ofIndex tokens index⟩

/-- The error as it is presented to a reader. -/
def diagnostic (e : ExpressionError) : Diagnostic where
  message := e.kind.text ++ " at " ++ e.spot.place ++ " (" ++ graveQuoted e.spot.literal ++
    " in " ++ e.production.text ++ ")"
  code := "cand::syntax"
  help := none
  labels := [Label.on e.spot.span "here"]

end ExpressionError

/-- Why a text or a range of tokens has no syntax tree. -/
inductive ParseError where
  | lexical (e : LexError)
  | scope (e : ScopeError)
  | misplaced (e : ExpressionError)
  | nestingTooDeep (limit : Nat) (spot : Spot)
  /-- An invariant of the library is broken; no input leads here. -/
  | fault (f : Fault)
deriving DecidableEq

namespace ParseError

/-- A misplaced token at an index. -/
def misplacedAt
    (tokens : Array Token) (kind : Misplacement) (production : Production) (index : Nat) :
    ParseError :=
  .misplaced (.atIndex tokens kind production index)

/-- Too deep a nesting at an index. -/
def tooDeepAt (tokens : Array Token) (limit index : Nat) : ParseError :=
  .nestingTooDeep limit (.ofIndex tokens index)

/-- The error as it is presented to a reader. -/
def diagnostic : ParseError → Diagnostic
  | lexical e => e.diagnostic
  | scope e => e.diagnostic
  | misplaced e => e.diagnostic
  | nestingTooDeep limit spot =>
      { message := "expression nesting exceeds the limit of " ++ toString limit ++ " at " ++
          spot.place
        code := "cand::parse::nesting_too_deep"
        help := some "raise --max-depth or split the expression"
        labels := [Label.on spot.span "too deep"] }
  | fault f => { message := f.message, code := "cand::internal", help := none, labels := [] }

end ParseError

/-- A scope error as an error of expressions. -/
def liftScope {α : Type} : Except ScopeError α → Except ParseError α
  | .ok a => .ok a
  | .error e => .error (.scope e)

/-- A fault as an error of expressions. -/
def liftFault {α : Type} : Except Fault α → Except ParseError α
  | .ok a => .ok a
  | .error f => .error (.fault f)

end ExprFront
