import ExprFront.Diagnostic
import ExprFront.Text.Escaped

/-!
# Lexical errors

Why a text cannot be cut into tokens, and where.
-/

namespace ExprFront

/-- Why no token could be read. -/
inductive LexCause where
  | unknownDirective (name : String)
  | unknownSpecialObject (name : String)
  | unterminatedString
  | invalidEscape (c : Char)
  | unterminatedComment
  | invalidNumber (literal : String)
  | unexpectedChar (c : Char)
deriving DecidableEq

/-- A lexical error with the bytes that it is about and the place of the first of them. -/
structure LexError where
  cause : LexCause
  span : Span
  line : Nat
  column : Nat
deriving DecidableEq

namespace LexCause

/-- The message for a cause at a place. -/
def message (place : String) : LexCause → String
  | unknownDirective name => "unknown directive " ++ graveQuoted ("#" ++ name) ++ " at " ++ place
  | unknownSpecialObject name =>
      "unknown special object " ++ graveQuoted ("@" ++ name) ++ " at " ++ place
  | unterminatedString => "unterminated string literal starting at " ++ place
  | invalidEscape c => "invalid escape " ++ graveQuoted ("\\" ++ c.toString) ++ " at " ++ place
  | unterminatedComment => "unterminated block comment starting at " ++ place
  | invalidNumber literal => "invalid number literal " ++ graveQuoted literal ++ " at " ++ place
  | unexpectedChar c => "unexpected character " ++ Text.showChar c ++ " at " ++ place

/-- The stable code of a cause. -/
def code : LexCause → String
  | unknownDirective _ => "cand::lex::unknown_directive"
  | unknownSpecialObject _ => "cand::lex::unknown_special_object"
  | unterminatedString => "cand::lex::unterminated_string"
  | invalidEscape _ => "cand::lex::invalid_escape"
  | unterminatedComment => "cand::lex::unterminated_comment"
  | invalidNumber _ => "cand::lex::invalid_number"
  | unexpectedChar _ => "cand::lex::unexpected_char"

/-- The hint for a cause. -/
def help : LexCause → Option String
  | unknownDirective _ => some "directives form a closed set, e.g. `#var`, `#func`, `#if`"
  | unterminatedString => some "strings end with `'` on the same line"
  | invalidEscape _ => some "valid escapes are \\' \\\\ \\n \\t \\r \\0"
  | invalidNumber _ => some "numbers take at most one suffix: `u`, `b` or `o`"
  | _ => none

/-- What is said of the bytes that a cause is about. -/
def label : LexCause → String
  | unknownDirective _ => "not a directive"
  | unknownSpecialObject _ => "not a special object"
  | unterminatedString => "string starts here"
  | invalidEscape _ => "unknown escape"
  | unterminatedComment => "comment starts here"
  | invalidNumber _ => "invalid number"
  | unexpectedChar _ => "unexpected"

end LexCause

/-- The error as it is presented to a reader. -/
def LexError.diagnostic (e : LexError) : Diagnostic where
  message := e.cause.message (placeText e.line e.column)
  code := e.cause.code
  help := e.cause.help
  labels := [Label.on e.span e.cause.label]

end ExprFront
