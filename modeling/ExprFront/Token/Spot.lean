import ExprFront.Token.Basic

/-!
# Spots

A spot is what an error keeps of the token that it points at.
-/

namespace ExprFront

/-- The literal and position of a token. -/
structure Spot where
  literal : String
  line : Nat
  column : Nat
  span : Span
deriving DecidableEq

namespace Spot

/-- The spot of a token. -/
def ofToken (t : Token) : Spot := ⟨t.literal, t.line, t.column, t.span⟩

/-- The start of an empty text. -/
def nowhere : Spot := ⟨"", 1, 1, ⟨0, 0⟩⟩

/-- The spot of a token by its index; past the end, that of the last token. -/
def ofIndex (tokens : Array Token) (index : Nat) : Spot :=
  match tokens[index]?.or tokens.back? with
  | some t => ofToken t
  | none => nowhere

/-- Line and column of the spot. -/
def place (s : Spot) : String := toString s.line ++ ":" ++ toString s.column

end Spot

end ExprFront
