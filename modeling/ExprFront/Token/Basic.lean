import ExprFront.Vocabulary.Directive
import ExprFront.Vocabulary.Operator
import ExprFront.Vocabulary.Punctuation
import ExprFront.Vocabulary.SpecialObject
import ExprFront.Position
import ExprFront.Text.Escaped

/-!
# Tokens

A token is a piece of a text together with its kind and its position. The
literal of a token is its exact text, so the literals of all tokens of a text
concatenate to that text.
-/

namespace ExprFront

/-- The kind of a token. -/
inductive TokenKind where
  | directive (d : Directive)
  | specialObject (o : SpecialObject)
  | operator (op : Operator)
  | punctuation (p : Punctuation)
  | identifier
  | number
  | unsigned
  | bit
  | octet
  | real
  | string
  | whitespace
  | newline
  | lineComment
  | blockComment
  /-- The empty token at the end of a text. -/
  | eof
deriving DecidableEq

namespace TokenKind

/-- The name of the kind in token dumps. -/
def name : TokenKind → String
  | directive _ => "directive"
  | specialObject _ => "special_object"
  | operator _ => "operator"
  | punctuation _ => "punctuation"
  | identifier => "identifier"
  | number => "number"
  | unsigned => "unsigned"
  | bit => "bit"
  | octet => "octet"
  | real => "real"
  | string => "string"
  | whitespace => "whitespace"
  | newline => "newline"
  | lineComment => "line_comment"
  | blockComment => "block_comment"
  | eof => "eof"

/-- The directive, if the token is one. -/
def directive? : TokenKind → Option Directive
  | directive d => some d
  | _ => none

/-- The operator, if the token is one. -/
def operator? : TokenKind → Option Operator
  | operator op => some op
  | _ => none

/-- The punctuation mark, if the token is one. -/
def punctuation? : TokenKind → Option Punctuation
  | punctuation p => some p
  | _ => none

/-- The bracket pair that the token opens. -/
def opens (k : TokenKind) : Option Bracket := k.punctuation?.bind Punctuation.opens

/-- The bracket pair that the token closes. -/
def closes (k : TokenKind) : Option Bracket := k.punctuation?.bind Punctuation.closes

/-- The operation that the token denotes before an operand. -/
def before (k : TokenKind) : Option Operation := k.operator?.bind Operator.before

/-- The operation that the token denotes between two operands. -/
def between (k : TokenKind) : Option Operation := k.operator?.bind Operator.between

/-- The operation that the token denotes after an operand. -/
def after (k : TokenKind) : Option Operation := k.operator?.bind Operator.after

/-- Whether the token only separates others: blanks and comments. -/
def isTrivia : TokenKind → Bool
  | whitespace | newline | lineComment | blockComment => true
  | _ => false

/-- Whether the token is an operand by itself. -/
def isOperand : TokenKind → Bool
  | identifier | specialObject _ | number | unsigned | bit | octet | real | string => true
  | _ => false

/-- Whether the token is an operator. -/
def isOperator (k : TokenKind) : Bool := k.operator?.isSome

/-- Whether an operand can end with the token. -/
def canEndOperand (k : TokenKind) : Bool :=
  k.isOperand || k.closes.isSome || k.after.isSome

end TokenKind

/-- A piece of a text with its kind and position. -/
structure Token where
  kind : TokenKind
  literal : String
  span : Span
  /-- The line of the first character, counted from one. -/
  line : Nat
  /-- The column of the first character, counted from one. -/
  column : Nat
  /-- How many lexical units the token combines: a mark and its name are two, both sides of a
  decimal point and the point are three. -/
  size : Nat
deriving DecidableEq

namespace Token

/-- Whether the token is this punctuation mark. -/
def isPunctuation (t : Token) (p : Punctuation) : Bool := t.kind == .punctuation p

/-- A parenthesis of no width at the start of another token. -/
def insertedAt (anchor : Token) (p : Punctuation) : Token where
  kind := .punctuation p
  literal := p.spelling
  span := ⟨anchor.span.start, anchor.span.start⟩
  line := anchor.line
  column := anchor.column
  size := 1

/-- Line, column, kind and literal, as in token dumps. -/
def text (t : Token) : String :=
  toString t.line ++ ":" ++ toString t.column ++ " " ++ t.kind.name ++ " " ++
    ExprFront.Text.showText t.literal

end Token

/-- All tokens but an end mark in last place. -/
def bodyRange (tokens : Array Token) : TokenRange :=
  match tokens.back? with
  | some t => if t.kind = .eof then ⟨0, tokens.size - 1⟩ else ⟨0, tokens.size⟩
  | none => ⟨0, 0⟩

/-- The literals of a range of tokens, one after the other. -/
def literalsText (tokens : Array Token) (range : TokenRange) : String :=
  String.join ((tokens.extract range.start range.stop).toList.map (·.literal))

end ExprFront
