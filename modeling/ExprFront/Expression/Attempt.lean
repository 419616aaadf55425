import ExprFront.Expression.Error
import ExprFront.Tree.Basic

/-!
# Attempts

Reading an expression either yields a value or fails. A failed attempt leaves
behind the trees that were finished before the failure, in the order in which
they were finished; an open list counts with the items that it had.
-/

namespace ExprFront

/-- A failed attempt. -/
structure Failure where
  error : ParseError
  /-- The trees that were finished before. -/
  finished : List Tree

/-- A value or a failure. -/
abbrev Attempt (α : Type) := Except Failure α

namespace Attempt

/-- A failure with nothing finished before it. -/
def fail {α : Type} (e : ParseError) : Attempt α := .error ⟨e, []⟩

/-- A failure after which one tree is left. -/
def failAfter {α : Type} (t : Tree) (e : ParseError) : Attempt α := .error ⟨e, [t]⟩

/-- An attempt before which a tree was finished. -/
def after {α : Type} (t : Tree) : Attempt α → Attempt α
  | .ok a => .ok a
  | .error failure => .error ⟨failure.error, t :: failure.finished⟩

/-- A result that has no trees to leave behind. -/
def lift {α : Type} : Except ParseError α → Attempt α
  | .ok a => .ok a
  | .error e => fail e

/-- A resolved scope. -/
def ofScope {α : Type} (r : Except ScopeError α) : Attempt α := lift (liftScope r)

end Attempt

end ExprFront
