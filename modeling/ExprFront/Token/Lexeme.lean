import ExprFront.Token.Basic
import ExprFront.Token.LexError
import ExprFront.Text.Blank
import ExprFront.Text.Quoted

/-!
# Lexemes

A lexeme is the piece that is recognised at the start of a text: the longest
piece of the class that its first characters select. Recognition looks at the
text alone and knows nothing of positions, so lengths are counted in characters
from the start of the piece.
-/

namespace ExprFront

/-- A piece recognised at the start of a text. -/
structure Lexeme where
  kind : TokenKind
  /-- How many lexical units it combines. -/
  size : Nat
  /-- How many characters follow its first one. -/
  tail : Nat
deriving DecidableEq

/-- Why no piece was recognised, with the characters that are to blame: so many after the start
of the piece, so many in number. -/
structure LexFault where
  cause : LexCause
  skipped : Nat
  width : Nat
deriving DecidableEq

namespace Lexeme

/-- Whether a name can start with the character. -/
def isNameStart (c : Char) : Bool := c.isAlpha || c == '_'

/-- Whether a name can go on with the character. -/
def isNameChar (c : Char) : Bool := c.isAlphanum || c == '_'

/-- How many characters at the start of the text satisfy the test. -/
def countWhile (p : Char → Bool) (text : List Char) : Nat := (text.takeWhile p).length

/-- A run of characters that satisfy the test, the first being known to. -/
def run (kind : TokenKind) (p : Char → Bool) (rest : List Char) : Lexeme :=
  ⟨kind, 1, countWhile p rest⟩

/-- How many characters a block comment has left, its end included. -/
def commentRest? : List Char → Option Nat
  | [] => none
  | '*' :: '/' :: _ => some 2
  | _ :: rest => (commentRest? rest).map (· + 1)

/-- A block comment, of which the opening slash and star are known. -/
def blockComment (body : List Char) : Except LexFault Lexeme :=
  match commentRest? body with
  | some n => .ok ⟨.blockComment, 1, 1 + n⟩
  | none => .error ⟨.unterminatedComment, 0, 2⟩

/-- The fault of a literal that meets the end of its line. -/
def unterminatedString : LexFault := ⟨.unterminatedString, 0, 1⟩

/-- How many characters a string literal has in all, its opening quote and `taken - 1` further
characters being known. -/
def stringLength (taken : Nat) : List Char → Except LexFault Nat
  | [] => .error unterminatedString
  | '\\' :: e :: rest =>
      if Text.isLineBreak e then .error unterminatedString
      else if (Text.Quoted.escaped? e).isSome then stringLength (taken + 2) rest
      else .error ⟨.invalidEscape e, taken, 2⟩
  | c :: rest =>
      if c = '\'' then .ok (taken + 1)
      else if Text.isLineBreak c then .error unterminatedString
      else stringLength (taken + 1) rest

/-- A string literal, of which the opening quote is known. -/
def string (rest : List Char) : Except LexFault Lexeme :=
  match stringLength 1 rest with
  | .ok n => .ok ⟨.string, 1, n - 1⟩
  | .error fault => .error fault

/-- The kind of number that a suffix letter makes. -/
def numberSuffix? : Char → Option TokenKind
  | 'u' => some .unsigned
  | 'b' => some .bit
  | 'o' => some .octet
  | _ => none

/-- What follows the leading digits of a number and belongs to it: a fraction or a suffix. The
point belongs to the number only before a digit, a suffix only where no name goes on after it. -/
def numberEnding : List Char → Lexeme
  | '.' :: d :: rest =>
      if d.isDigit then ⟨.real, 3, 2 + countWhile Char.isDigit rest⟩ else ⟨.number, 1, 0⟩
  | s :: rest =>
      if rest.head?.any isNameChar then ⟨.number, 1, 0⟩
      else match numberSuffix? s with
        | some kind => ⟨kind, 2, 1⟩
        | none => ⟨.number, 1, 0⟩
  | [] => ⟨.number, 1, 0⟩

/-- A number, of which the first digit is known. No name may follow it directly. -/
def number (first : Char) (rest : List Char) : Except LexFault Lexeme :=
  let digits := countWhile Char.isDigit rest
  let ending := numberEnding (rest.drop digits)
  let tail := digits + ending.tail
  let surplus := countWhile isNameChar (rest.drop tail)
  if surplus = 0 then .ok ⟨ending.kind, ending.size, tail⟩
  else
    let literal := String.ofList (first :: rest.take (tail + surplus))
    .error ⟨.invalidNumber literal, 0, 1 + tail + surplus⟩

/-- The name at the start of the text, possibly empty. -/
def nameText (text : List Char) : String := String.ofList (text.takeWhile isNameChar)

/-- A directive, of which the mark is known. -/
def directive (rest : List Char) : Except LexFault Lexeme :=
  let n := countWhile isNameChar rest
  match Directive.ofSpelling? (nameText rest) with
  | some d => .ok ⟨.directive d, 2, n⟩
  | none => .error ⟨.unknownDirective (nameText rest), 0, 1 + n⟩

/-- A special object, of which the mark is known. -/
def specialObject (rest : List Char) : Except LexFault Lexeme :=
  let n := countWhile isNameChar rest
  match SpecialObject.ofSpelling? (nameText rest) with
  | some o => .ok ⟨.specialObject o, 2, n⟩
  | none => .error ⟨.unknownSpecialObject (nameText rest), 0, 1 + n⟩

/-- The punctuation mark that is this one character. -/
def mark? : Char → Option Punctuation
  | '(' => some .lparen
  | ')' => some .rparen
  | '[' => some .lbracket
  | ']' => some .rbracket
  | '\x7b' => some .lbrace
  | '\x7d' => some .rbrace
  | ';' => some .semicolon
  | ',' => some .comma
  | ':' => some .colon
  | _ => none

/-- A piece that starts with a point. -/
def point : List Char → Lexeme
  | '.' :: '.' :: _ => ⟨.punctuation .ellipsis, 1, 2⟩
  | _ => ⟨.operator .dot, 1, 0⟩

/-- A piece that is neither blank, comment, literal nor name. -/
def sign (first : Char) (rest : List Char) : Except LexFault Lexeme :=
  match Operator.longestMatch? (first :: rest) with
  | some op => .ok ⟨.operator op, 1, op.spelling.length - 1⟩
  | none =>
      match mark? first with
      | some p => .ok ⟨.punctuation p, 1, 0⟩
      | none =>
          if first = '.' then .ok (point rest)
          else .error ⟨.unexpectedChar first, 0, 1⟩

/-- The piece that starts with a character and goes on with some of the rest. -/
def recognise (first : Char) (rest : List Char) : Except LexFault Lexeme :=
  if first = '/' ∧ rest.head? = some '/' then .ok (run .lineComment (· != '\n') rest)
  else if first = '/' ∧ rest.head? = some '*' then blockComment rest.tail
  else if first = '\'' then string rest
  else if Text.isLineBreak first then .ok (run .newline Text.isLineBreak rest)
  else if Text.isSpace first then .ok (run .whitespace Text.isSpace rest)
  else if first.isDigit then number first rest
  else if isNameStart first then .ok (run .identifier isNameChar rest)
  else if first = '#' then directive rest
  else if first = '@' then specialObject rest
  else sign first rest

end Lexeme

end ExprFront
