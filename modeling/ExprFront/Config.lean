/-!
# Configuration

The choices that a caller has when expressions are read.
-/

namespace ExprFront

/-- When an expression is grouped before it is read. -/
inductive Normalization where
  | never
  | always
  /-- Only if a bracket group stands after an operand somewhere in it. -/
  | auto
deriving DecidableEq

/-- The choices for reading expressions. -/
structure Config where
  /-- How deep groups, operators before operands and chains from the right may nest. -/
  limit : Nat := 256
  normalization : Normalization := .auto
  /-- Whether nodes that say no more than their only child are collapsed. -/
  simplify : Bool := true
deriving DecidableEq

/-- The choices that are made where the caller makes none. -/
def Config.standard : Config := {}

end ExprFront
