import ExprFront.Text.Extending
import ExprFront.Text.Printable

/-!
# Escaped text

Token dumps and messages show a literal between quotes, with an escape for
every character that would not be legible there.
-/

namespace ExprFront.Text

/-- The hexadecimal digits of a number, in lower case and without leading zeros. -/
def hexText (n : Nat) : String := String.ofList (Nat.toDigits 16 n)

/-- A character by its code point. -/
def codePointEscape (c : Char) : String :=
  "\\u\x7b" ++ hexText c.toNat ++ "\x7d"

/-- How a character is shown inside a text delimited by `quote`. -/
def escapeChar (quote c : Char) : String :=
  if c = Char.ofNat 0 then "\\0"
  else if c = '\t' then "\\t"
  else if c = '\r' then "\\r"
  else if c = '\n' then "\\n"
  else if c = '\\' then "\\\\"
  else if c = quote then "\\" ++ quote.toString
  else if isExtending c || !isPrintable c then codePointEscape c
  else c.toString

/-- A text between double quotes, with its illegible characters escaped. -/
def showText (text : String) : String :=
  "\"" ++ String.join (text.toList.map (escapeChar '"')) ++ "\""

/-- A character between single quotes, escaped if it is illegible. -/
def showChar (c : Char) : String :=
  "'" ++ escapeChar '\'' c ++ "'"

end ExprFront.Text
