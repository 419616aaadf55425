import ExprFront.Text.CharTable

/-!
# Blanks

Blanks are the characters with the white-space property: line breaks, tabs and
the spaces of every width, but not the zero-width ones. Line breaks are told
apart from the rest because they form tokens of their own.
-/

namespace ExprFront.Text

/-- The characters with the white-space property. -/
def blankTable : CharTable :=
  [(0x09, 0x0D), (0x20, 0x20), (0x85, 0x85), (0xA0, 0xA0), (0x1680, 0x1680), (0x2000, 0x200A),
    (0x2028, 0x2029), (0x202F, 0x202F), (0x205F, 0x205F), (0x3000, 0x3000)]

/-- Whether the character is a blank. -/
def isBlank (c : Char) : Bool := blankTable.holds c

/-- Whether the character breaks a line for the purpose of grouping blanks. -/
def isLineBreak (c : Char) : Bool := c == '\n' || c == '\r'

/-- Whether the character is a blank within a line. -/
def isSpace (c : Char) : Bool := isBlank c && !isLineBreak c

/-- Every blank of the basic class is a blank. -/
theorem isBlank_of_isWhitespace
    {c : Char} (h : c.isWhitespace = true) : isBlank c = true := by
  simp only [Char.isWhitespace, Bool.or_eq_true, decide_eq_true_eq] at h
  rcases h with ((h | h) | h) | h <;> subst h <;> decide

end ExprFront.Text
