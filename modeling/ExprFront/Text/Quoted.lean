/-!
# Quoted literals

A string literal stands between single quotes. A backslash introduces one of
six escapes: line feed, tab, carriage return, the null character, the backslash
and the quote. This module says which characters may follow a backslash and how
a literal is read back into the text that it stands for.
-/

namespace ExprFront.Text.Quoted

/-- The character that a backslash followed by this one stands for. -/
def escaped? : Char → Option Char
  | 'n' => some '\n'
  | 't' => some '\t'
  | 'r' => some '\r'
  | '0' => some (Char.ofNat 0)
  | '\\' => some '\\'
  | '\'' => some '\''
  | _ => none

/-- The text that the body of a literal stands for. An escape that means nothing stays as it is. -/
def decode : List Char → List Char
  | [] => []
  | '\\' :: e :: rest =>
      match escaped? e with
      | some c => c :: decode rest
      | none => '\\' :: e :: decode rest
  | c :: rest => c :: decode rest

/-- A text without its last character, if that is a quote. -/
def dropClosingQuote? (text : List Char) : Option (List Char) :=
  if text.getLast? = some '\'' then some text.dropLast else none

/-- The body of a literal. A text without a quote at both ends is all body. -/
def body : List Char → List Char
  | '\'' :: rest => (dropClosingQuote? rest).getD ('\'' :: rest)
  | text => text

/-- The text that a literal stands for. -/
def read (literal : String) : String :=
  String.ofList (decode (body literal.toList))

end ExprFront.Text.Quoted
