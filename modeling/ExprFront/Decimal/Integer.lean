/-!
# Decimal integers

Reading of decimal integers within bounds. One sign may stand in front: a plus
always, a minus only where negative numbers are meant. Leading zeros carry no
weight, and a number of any length is read exactly before it is compared with
the bounds.
-/

namespace ExprFront.Decimal

/-- The value of a decimal digit. -/
def digit? (c : Char) : Option Nat :=
  if c.isDigit then some (c.toNat - '0'.toNat) else none

/-- The value of a run of digits that follows digits of value `acc`. -/
def readDigits? (acc : Nat) : List Char → Option Nat
  | [] => some acc
  | c :: rest =>
      match digit? c with
      | some d => readDigits? (10 * acc + d) rest
      | none => none

/-- The value of a text that consists of digits, at least one. -/
def readNat? : List Char → Option Nat
  | [] => none
  | c :: rest => readDigits? 0 (c :: rest)

/-- A natural number up to `bound`, with an optional plus sign. -/
def readUnsigned? (bound : Nat) (text : List Char) : Option Nat :=
  let digits := match text with
    | '+' :: rest => rest
    | _ => text
  match readNat? digits with
  | some n => if n ≤ bound then some n else none
  | none => none

/-- An integer with an optional sign. -/
def readSign? : List Char → Option Int
  | '-' :: rest => (readNat? rest).map fun n => -(n : Int)
  | '+' :: rest => (readNat? rest).map fun n => (n : Int)
  | text => (readNat? text).map fun n => (n : Int)

/-- An integer from `low` to `high`, with an optional sign. -/
def readSigned? (low high : Int) (text : List Char) : Option Int :=
  match readSign? text with
  | some n => if low ≤ n ∧ n ≤ high then some n else none
  | none => none

/-- The largest integer of eight bytes. -/
def maxInt : Nat := Nat.pow 2 63 - 1

/-- The largest natural number of eight bytes. -/
def maxUnsigned : Nat := Nat.pow 2 64 - 1

/-- The largest natural number of one byte. -/
def maxOctet : Nat := Nat.pow 2 8 - 1

/-- An integer of eight bytes. -/
def readInt? (text : List Char) : Option Int :=
  readSigned? (-(maxInt : Int) - 1) maxInt text

end ExprFront.Decimal
