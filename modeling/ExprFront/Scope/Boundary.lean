import ExprFront.Token.Basic

/-!
# Boundaries

A boundary says which tokens may open or close a scope.
-/

namespace ExprFront

/-- A condition on the token that opens or closes a scope. -/
inductive Boundary where
  | mark (p : Punctuation)
  | directive (d : Directive)
  | anyDirective
  | any
deriving DecidableEq

namespace Boundary

/-- Whether the token meets the condition. -/
def admits : Boundary → Token → Bool
  | mark p, t => t.isPunctuation p
  | directive d, t => t.kind == .directive d
  | anyDirective, t => t.kind.directive?.isSome
  | any, _ => true

/-- The condition in words, for messages. -/
def describe : Boundary → String
  | mark p => p.spelling
  | directive d => d.marked
  | anyDirective => "#directive"
  | any => "any token"

end Boundary

end ExprFront
