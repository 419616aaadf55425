import ExprFront.Token.Lexeme

/-!
# Cutting a text into tokens

A text is cut into lexemes from left to right until it is used up or a piece is
not recognised. The tokens of a text end with an empty end mark.
-/

namespace ExprFront

/-- The token of a kind whose literal starts at a place. -/
def Token.at (place : Cursor) (kind : TokenKind) (size : Nat) (literal : List Char) : Token where
  kind := kind
  literal := String.ofList literal
  span := ⟨place.offset, (place.advanceAll literal).offset⟩
  line := place.line
  column := place.column
  size := size

/-- The error of a fault in the piece that starts at a place. -/
def LexFault.locate (fault : LexFault) (place : Cursor) (text : List Char) : LexError :=
  let start := place.advanceAll (text.take fault.skipped)
  let stop := start.advanceAll ((text.drop fault.skipped).take fault.width)
  ⟨fault.cause, ⟨start.offset, stop.offset⟩, start.line, start.column⟩

/-- The tokens of a text that starts at a place, after the tokens read before it. -/
def scan (text : List Char) (place : Cursor) (before : Array Token) :
    Except LexError (Array Token) :=
  match text with
  | [] => .ok (before.push (Token.at place .eof 1 []))
  | first :: rest =>
      match Lexeme.recognise first rest with
      | .error fault => .error (fault.locate place (first :: rest))
      | .ok lexeme =>
          let literal := first :: rest.take lexeme.tail
          scan (rest.drop lexeme.tail) (place.advanceAll literal)
            (before.push (Token.at place lexeme.kind lexeme.size literal))
termination_by text.length
decreasing_by simp only [List.length_drop, List.length_cons]; omega

/-- All tokens of a text, blanks and comments included. -/
def tokenize (source : String) : Except LexError (Array Token) :=
  scan source.toList .origin #[]

/-- The tokens without blanks and comments. -/
def withoutTrivia (tokens : Array Token) : Array Token :=
  tokens.filter fun t => !t.kind.isTrivia

/-- The tokens of a text, without blanks and comments. -/
def lex (source : String) : Except LexError (Array Token) :=
  (tokenize source).map withoutTrivia

end ExprFront
