import ExprFront.Diagnostic
import ExprFront.Token.Spot

/-!
# Scope errors

Why a scope could not be resolved. Every error points at one token; some
mention a second one, which opened what is at fault.
-/

namespace ExprFront

/-- The kind of scope that was being resolved. -/
inductive ScopeRule where
  | bracket (b : Bracket)
  | statement
  | openStatement
deriving DecidableEq

namespace ScopeRule

/-- The rule in words. -/
def text : ScopeRule → String
  | bracket .paren => "paren scope"
  | bracket .square => "bracket scope"
  | bracket .brace => "brace scope"
  | statement => "statement"
  | openStatement => "open statement"

/-- Whether the scope is a statement, which may itself start with a bracket. -/
def isStatement : ScopeRule → Bool
  | bracket _ => false
  | statement | openStatement => true

end ScopeRule

/-- Why a scope could not be resolved. -/
inductive ScopeCause where
  /-- The first token does not open such a scope. -/
  | notAnOpener (expected : String)
  /-- A closing bracket meets an open bracket of another kind, or none. -/
  | mismatched (opened : Spot)
  /-- The scope closes while a bracket inside it is open. -/
  | unclosedInner (inner : Spot)
  /-- A statement starts again before it ended. -/
  | repeatedOpener (opened : Spot)
  /-- The scope is never closed. -/
  | unterminated (expected : String)
deriving DecidableEq

/-- A scope error with the token that it points at. -/
structure ScopeError where
  rule : ScopeRule
  cause : ScopeCause
  spot : Spot
deriving DecidableEq

namespace ScopeError

/-- The message of the error. -/
def message (e : ScopeError) : String :=
  let found := graveQuoted e.spot.literal
  let place := e.spot.place
  e.rule.text ++ ": " ++ match e.cause with
    | .notAnOpener expected =>
        found ++ " at " ++ place ++ " does not open a scope, expected " ++ graveQuoted expected
    | .mismatched opened =>
        found ++ " at " ++ place ++ " does not match " ++ graveQuoted opened.literal ++
          " opened at " ++ opened.place
    | .unclosedInner inner =>
        found ++ " at " ++ place ++ " closes the scope while " ++ graveQuoted inner.literal ++
          " opened at " ++ inner.place ++ " is still open"
    | .repeatedOpener opened =>
        found ++ " repeated at " ++ place ++ " before the statement opened at " ++ opened.place ++
          " ended"
    | .unterminated expected =>
        found ++ " at " ++ place ++ " is never closed, expected " ++ graveQuoted expected

/-- The stable code of a cause. -/
def code (e : ScopeError) : String :=
  match e.cause with
  | .notAnOpener _ => "cand::scope::not_an_opener"
  | .mismatched _ => "cand::scope::mismatched"
  | .unclosedInner _ => "cand::scope::unclosed_inner"
  | .repeatedOpener _ => "cand::scope::repeated_opener"
  | .unterminated _ => "cand::scope::unterminated"

/-- What is said of the token that the error points at. -/
def label (e : ScopeError) : String :=
  match e.cause with
  | .notAnOpener _ => "expected an opener here"
  | .mismatched _ => "mismatched closer"
  | .unclosedInner _ => "inner scope still open"
  | .repeatedOpener _ => "repeated here"
  | .unterminated _ => "opened here"

/-- The hint for the error. -/
def help (e : ScopeError) : Option String :=
  match e.cause with
  | .repeatedOpener _ => some "terminate the previous statement with `;`"
  | _ => none

/-- The error as it is presented to a reader. -/
def diagnostic (e : ScopeError) : Diagnostic where
  message := e.message
  code := e.code
  help := e.help
  labels := [Label.on e.spot.span e.label]

end ScopeError

end ExprFront
