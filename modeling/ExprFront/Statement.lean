import ExprFront.Scope.Basic

/-!
# Statements

A program is a sequence of statements, each ended by a semicolon outside
brackets. A statement that starts with a directive may not meet the same
directive again before it ends; every other statement is a value statement.
Semicolons between statements are passed over.
-/

namespace ExprFront

/-- What a statement starts with. -/
inductive StatementKind where
  | directive (d : Directive)
  | value
deriving DecidableEq

/-- The kind in reports: the directive with its mark, or a word for a value. -/
def StatementKind.text : StatementKind → String
  | directive d => d.marked
  | value => "value"

/-- A statement of a program. -/
structure Statement where
  kind : StatementKind
  /-- The tokens of the statement without the semicolon. -/
  range : TokenRange
  /-- The tokens of the statement with the semicolon. -/
  scope : Scope
deriving DecidableEq

namespace Statement

/-- The boundary that ends statements. -/
def terminator : Boundary := .mark .semicolon

/-- The statement that starts the range, whose first token is known. -/
def resolve (tokens : Array Token) (range : TokenRange) (first : Token) :
    Except ScopeError Statement :=
  let found (kind : StatementKind) (scope : Scope) : Statement :=
    ⟨kind, ⟨scope.start, scope.stop - 1⟩, scope⟩
  match first.kind.directive? with
  | some d =>
      (Scope.statement tokens range (.directive d) terminator).map (found (.directive d))
  | none => (Scope.openStatement tokens range .any terminator).map (found .value)

/-- The statements of the tokens from `index` to `stop`. -/
def splitFrom (tokens : Array Token) (stop : Nat) :
    (steps index : Nat) → Except ScopeError (List Statement)
  | 0, _ => .ok []
  | steps + 1, index =>
      if stop ≤ index then .ok []
      else match tokens[index]? with
        | none => .ok []
        | some t =>
            if t.isPunctuation .semicolon then splitFrom tokens stop steps (index + 1)
            else match resolve tokens ⟨index, stop⟩ t with
              | .error e => .error e
              | .ok statement =>
                  match splitFrom tokens stop steps statement.scope.stop with
                  | .ok later => .ok (statement :: later)
                  | .error e => .error e

/-- The statements of a range of tokens. -/
def split (tokens : Array Token) (range : TokenRange) : Except ScopeError (List Statement) :=
  splitFrom tokens range.stop range.length range.start

end Statement

end ExprFront
