import ExprFront.Position

/-!
# Diagnostics

Errors of every stage are presented in one form: a message, a stable code, an
optional hint and labels on the bytes that they are about.
-/

namespace ExprFront

/-- A remark on a range of bytes. -/
structure Label where
  offset : Nat
  length : Nat
  text : String
deriving DecidableEq

/-- A remark on a span. -/
def Label.on (span : Span) (text : String) : Label := ⟨span.start, span.length, text⟩

/-- An error as it is presented to a reader. -/
structure Diagnostic where
  message : String
  code : String
  help : Option String
  labels : List Label
deriving DecidableEq

/-- A line and a column with a colon between them. -/
def placeText (line column : Nat) : String := toString line ++ ":" ++ toString column

/-- A text between grave accents. -/
def graveQuoted (text : String) : String := "`" ++ text ++ "`"

end ExprFront
