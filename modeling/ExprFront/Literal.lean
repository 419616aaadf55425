import ExprFront.Decimal.Binary64
import ExprFront.Diagnostic
import ExprFront.Text.Quoted
import ExprFront.Token.Spot
import ExprFront.Tree.Kind

/-!
# Literal values

The value that a leaf stands for. Integers are read exactly and then held
against the bounds of their type; the suffix letters of a number carry no value.
-/

namespace ExprFront

/-- The value of a literal. -/
inductive LiteralValue where
  | int (n : Int)
  | unsigned (n : Nat)
  | bit (b : Bool)
  | octet (n : Nat)
  /-- A binary64 number by its bits. -/
  | real (bits : Nat)
  | str (text : String)
deriving DecidableEq

/-- Why a node has no value. -/
inductive LiteralError where
  | outOfRange (target : String) (spot : Spot)
  | invalidBit (spot : Spot)
  | notALiteral (kind : NodeKind)
deriving DecidableEq

namespace LiteralError

/-- The error as it is presented to a reader. -/
def diagnostic : LiteralError → Diagnostic
  | outOfRange target spot =>
      { message := graveQuoted spot.literal ++ " at " ++ spot.place ++ " is out of range for " ++
          target
        code := "cand::literal::out_of_range"
        help := none
        labels := [Label.on spot.span "out of range"] }
  | invalidBit spot =>
      { message := graveQuoted spot.literal ++ " at " ++ spot.place ++
          " is not a valid bit, expected `0b` or `1b`"
        code := "cand::literal::invalid_bit"
        help := none
        labels := [Label.on spot.span "invalid bit"] }
  | notALiteral kind =>
      { message := "node " ++ graveQuoted kind.name ++ " is not a literal"
        code := "cand::literal::not_a_literal"
        help := none
        labels := [] }

end LiteralError

namespace LiteralValue

/-- A literal without the letters at its end. -/
def withoutSuffix (literal : List Char) : List Char :=
  (literal.reverse.dropWhile Char.isAlpha).reverse

/-- The value, or the error that the literal of the token is out of range. -/
def orOutOfRange (t : Token) (target : String) :
    Option LiteralValue → Except LiteralError LiteralValue
  | some v => .ok v
  | none => .error (.outOfRange target (.ofToken t))

/-- The value of a bit literal. -/
def readBit (t : Token) (digits : List Char) : Except LiteralError LiteralValue :=
  if digits = ['0'] then .ok (bit false)
  else if digits = ['1'] then .ok (bit true)
  else .error (.invalidBit (.ofToken t))

/-- The value of a token as a leaf of the kind. -/
def ofToken (k : NodeKind) (t : Token) : Except LiteralError LiteralValue :=
  let literal := t.literal.toList
  let digits := withoutSuffix literal
  match k with
  | .number => orOutOfRange t "int" ((Decimal.readInt? digits).map int)
  | .unsigned =>
      orOutOfRange t "uint" ((Decimal.readUnsigned? Decimal.maxUnsigned digits).map unsigned)
  | .octet => orOutOfRange t "octet" ((Decimal.readUnsigned? Decimal.maxOctet digits).map octet)
  | .real => orOutOfRange t "real" ((Decimal.Binary64.read? literal).map real)
  | .bit => readBit t digits
  | .string => .ok (str (Text.Quoted.read t.literal))
  | _ => .error (.notALiteral k)

/-- The value of a node of the kind that starts at a token. -/
def ofNode (tokens : Array Token) (k : NodeKind) (range : TokenRange) :
    Except LiteralError LiteralValue :=
  match tokens[range.start]? with
  | some t => if k.isLeaf then ofToken k t else .error (.notALiteral k)
  | none => .error (.notALiteral k)

end LiteralValue

end ExprFront
