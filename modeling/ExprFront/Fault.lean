/-!
# Faults

A fault is the breach of an invariant of the library itself, never of its
input. Faults exist so that the functions can be total where their callers
promise something; that they do not occur is a matter of proof.
-/

namespace ExprFront

/-- An invariant that does not hold. -/
inductive Fault where
  /-- A token index outside the tokens. -/
  | missingToken (index : Nat)
  /-- A node index outside the arena. -/
  | missingNode (id : Nat)
  /-- A node that has a parent is given another one. -/
  | alreadyAttached (id : Nat)
  /-- The bottom of the stack of open applications is closed. -/
  | sentinelClosed
  /-- The bound on the depth of recursion is too small. -/
  | exhausted
deriving DecidableEq

namespace Fault

/-- The fault in words. -/
def message : Fault → String
  | missingToken index => "INVARIANT: there is no token " ++ toString index
  | missingNode id => "INVARIANT: there is no node NodeId(" ++ toString id ++ ")"
  | alreadyAttached id => "INVARIANT: node NodeId(" ++ toString id ++ ") is already attached"
  | sentinelClosed => "INVARIANT: the bottom of the stack is never closed"
  | exhausted => "INVARIANT: the recursion is bounded by the nesting limit"

end Fault

end ExprFront
