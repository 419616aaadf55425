/-!
# Positions

A position in a text is counted in three ways at once: in bytes of its UTF-8
form, in lines and in characters of the line. Ranges of tokens are counted in
tokens. All ranges are half open.
-/

namespace ExprFront

/-- A range of bytes of a text. -/
structure Span where
  start : Nat
  stop : Nat
deriving DecidableEq

/-- The number of bytes in the range. -/
def Span.length (s : Span) : Nat := s.stop - s.start

/-- A place between two characters of a text. Lines and columns are counted from one. -/
structure Cursor where
  offset : Nat
  line : Nat
  column : Nat
deriving DecidableEq

namespace Cursor

/-- The place before the first character. -/
def origin : Cursor := ⟨0, 1, 1⟩

/-- The place after one more character. Only a line feed begins a new line. -/
def advance (place : Cursor) (c : Char) : Cursor :=
  if c = '\n' then ⟨place.offset + c.utf8Size, place.line + 1, 1⟩
  else ⟨place.offset + c.utf8Size, place.line, place.column + 1⟩

/-- The place after a run of characters. -/
def advanceAll (place : Cursor) (cs : List Char) : Cursor := cs.foldl advance place

@[simp] theorem advanceAll_nil
    (place : Cursor) : place.advanceAll [] = place := rfl

@[simp] theorem advanceAll_cons
    (place : Cursor) (c : Char) (cs : List Char) :
    place.advanceAll (c :: cs) = (place.advance c).advanceAll cs := rfl

theorem advanceAll_append
    (place : Cursor) (cs ds : List Char) :
    place.advanceAll (cs ++ ds) = (place.advanceAll cs).advanceAll ds := by
  simp [advanceAll, List.foldl_append]

end Cursor

/-- A range of token indices. -/
structure TokenRange where
  start : Nat
  stop : Nat
deriving DecidableEq

namespace TokenRange

/-- The number of tokens in the range. -/
def length (r : TokenRange) : Nat := r.stop - r.start

/-- Whether the range holds no token. -/
def isEmpty (r : TokenRange) : Bool := r.stop ≤ r.start

/-- Whether the other range lies within this one. -/
def contains (r other : TokenRange) : Bool := r.start ≤ other.start && other.stop ≤ r.stop

/-- Both ends with two points between them. -/
def text (r : TokenRange) : String := toString r.start ++ ".." ++ toString r.stop

theorem isEmpty_iff_length_eq_zero
    (r : TokenRange) : r.isEmpty = true ↔ r.length = 0 := by
  simp only [isEmpty, length, decide_eq_true_eq]
  omega

theorem contains_iff
    (r other : TokenRange) :
    r.contains other = true ↔ r.start ≤ other.start ∧ other.stop ≤ r.stop := by
  simp [contains]

@[simp] theorem contains_self
    (r : TokenRange) : r.contains r = true := by
  simp [contains]

theorem contains_trans
    {r s t : TokenRange} (hrs : r.contains s = true) (hst : s.contains t = true) :
    r.contains t = true := by
  rw [contains_iff] at *
  omega

end TokenRange

/-- The characters of a text that are left after a number of bytes. -/
def dropBytes : Nat → List Char → List Char
  | _, [] => []
  | 0, c :: cs => c :: cs
  | n + 1, c :: cs => dropBytes (n + 1 - c.utf8Size) cs

/-- The characters of a text that lie within a number of bytes. -/
def takeBytes : Nat → List Char → List Char
  | _, [] => []
  | 0, _ :: _ => []
  | n + 1, c :: cs => c :: takeBytes (n + 1 - c.utf8Size) cs

/-- The part of a text that a byte range covers. -/
def Span.slice (s : Span) (text : List Char) : List Char :=
  takeBytes s.length (dropBytes s.start text)

end ExprFront
