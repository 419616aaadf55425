import ExprFront.Decimal.Integer

/-!
# Decimal fractions as binary64 numbers

A decimal fraction denotes the nearest number of the binary64 format; of two
equally near ones, the one with an even last bit. The result is kept as the
format's 64 bits, so that it can be compared and reasoned about exactly. All
arithmetic is on natural numbers.
-/

namespace ExprFront.Decimal.Binary64

/-- The bits of positive infinity, which every too large number becomes. -/
def infinity : Nat := 0x7FF0000000000000

/-- The bits of the quiet not-a-number. -/
def notANumber : Nat := 0x7FF8000000000000

/-- The bit that makes a number negative. -/
def signBit : Nat := 0x8000000000000000

/-- A quotient rounded to the nearest integer, a half to the even neighbour. -/
def roundDiv (num den : Nat) : Nat :=
  let q := num / den
  let twice := 2 * (num % den)
  if den < twice then q + 1
  else if twice = den then q + q % 2
  else q

/-- The exponent of the largest power of two that is at most `num / den`. -/
def exponent (num den : Nat) : Int :=
  let e : Int := (Nat.log2 num : Int) - Nat.log2 den
  let fits : Bool := match e with
    | .ofNat k => den * Nat.pow 2 k ≤ num
    | .negSucc k => den ≤ num * Nat.pow 2 (k + 1)
  if fits then e else e - 1

/-- The number of units of `2 ^ unit` in `num / den`, rounded. -/
def countUnits (num den : Nat) (unit : Int) : Nat :=
  match unit with
  | .ofNat k => roundDiv num (den * Nat.pow 2 k)
  | .negSucc k => roundDiv (num * Nat.pow 2 (k + 1)) den

/-- The bits of the number nearest to `num / den`. -/
def ofRatio (num den : Nat) : Nat :=
  if num = 0 then 0
  else
    let unit := max (exponent num den - 52) (-1074)
    let bits := (unit + 1074).toNat * Nat.pow 2 52 + countUnits num den unit
    min bits infinity

/-- The bits of the number nearest to `mantissa * 10 ^ exponent`. Beyond the decimal exponents
of the format the answer is known without a computation. -/
def ofScientific (mantissa : Nat) (exponent : Int) : Nat :=
  let magnitude := ((Nat.toDigits 10 mantissa).length : Int) + exponent
  if mantissa = 0 then 0
  else if magnitude > 400 then infinity
  else if magnitude < -400 then 0
  else match exponent with
    | .ofNat k => ofRatio (mantissa * Nat.pow 10 k) 1
    | .negSucc k => ofRatio mantissa (Nat.pow 10 (k + 1))

/-- The decimal exponent that ends a number; nothing is the exponent zero. -/
def readExponent? : List Char → Option Int
  | [] => some 0
  | c :: rest => if c = 'e' ∨ c = 'E' then readSign? rest else none

/-- A fraction without a sign: digits with at most one point among or around them, then an
optional exponent. -/
def readMagnitude? (text : List Char) : Option Nat :=
  let whole := text.takeWhile Char.isDigit
  let afterWhole := text.dropWhile Char.isDigit
  let (fraction, rest) := match afterWhole with
    | '.' :: more => (more.takeWhile Char.isDigit, more.dropWhile Char.isDigit)
    | _ => ([], afterWhole)
  match readNat? (whole ++ fraction), readExponent? rest with
  | some mantissa, some e => some (ofScientific mantissa (e - fraction.length))
  | _, _ => none

/-- The names of the numbers that have no digits, in any case. -/
def readName? (text : List Char) : Option Nat :=
  let name := text.map Char.toLower
  if name = "inf".toList ∨ name = "infinity".toList then some infinity
  else if name = "nan".toList then some notANumber
  else none

/-- The bits of a decimal fraction with an optional sign. -/
def read? (text : List Char) : Option Nat :=
  let unsigned (t : List Char) := (readMagnitude? t).or (readName? t)
  match text with
  | '-' :: rest => (unsigned rest).map (signBit + ·)
  | '+' :: rest => unsigned rest
  | _ => unsigned text

end ExprFront.Decimal.Binary64
