import ExprFront.Vocabulary.Release

/-!
# Punctuation and brackets

Punctuation marks are the marks that are no operators: separators, the
ellipsis and the three bracket pairs. A `Bracket` ties an opening mark to its
closing mark.
-/

namespace ExprFront

/-- A broad grouping of the punctuation marks. -/
inductive PunctuationCategory where
  | delimiter
  | separator
  | marker
deriving DecidableEq

/-- The name under which a category is listed. -/
def PunctuationCategory.label : PunctuationCategory → String
  | .delimiter => "Delimiter"
  | .separator => "Separator"
  | .marker => "Marker"

/-- The punctuation marks of the language. -/
inductive Punctuation where
  | comma
  | semicolon
  | colon
  | ellipsis
  | lparen
  | rparen
  | lbracket
  | rbracket
  | lbrace
  | rbrace
deriving DecidableEq

/-- What is fixed about a punctuation mark. -/
structure PunctuationEntry where
  /-- The name under which the mark is listed. -/
  label : String
  spelling : String
  category : PunctuationCategory
  since : Release
  stability : Stability

namespace Punctuation

/-- The table of punctuation marks. -/
def entry : Punctuation → PunctuationEntry
  | comma => ⟨"Comma", ",", .separator, .first, .stable⟩
  | semicolon => ⟨"Semicolon", ";", .separator, .first, .stable⟩
  | colon => ⟨"Colon", ":", .separator, .first, .stable⟩
  | ellipsis => ⟨"Ellipsis", "...", .marker, .first, .stable⟩
  | lparen => ⟨"LParen", "(", .delimiter, .first, .stable⟩
  | rparen => ⟨"RParen", ")", .delimiter, .first, .stable⟩
  | lbracket => ⟨"LBracket", "[", .delimiter, .first, .stable⟩
  | rbracket => ⟨"RBracket", "]", .delimiter, .first, .stable⟩
  | lbrace => ⟨"LBrace", "\x7b", .delimiter, .first, .stable⟩
  | rbrace => ⟨"RBrace", "\x7d", .delimiter, .first, .stable⟩

/-- All punctuation marks, in the order of the table. -/
def all : List Punctuation :=
  [comma, semicolon, colon, ellipsis, lparen, rparen, lbracket, rbracket, lbrace, rbrace]

/-- No punctuation mark is missing from the list. -/
theorem mem_all (p : Punctuation) : p ∈ all := by
  cases p <;> decide

/-- How the mark is written. -/
def spelling (p : Punctuation) : String := p.entry.spelling

/-- The mark that is written exactly so. -/
def ofSpelling? (text : String) : Option Punctuation :=
  all.find? fun p => p.spelling == text

end Punctuation

/-- A bracket pair. -/
inductive Bracket where
  | paren
  | square
  | brace
deriving DecidableEq

namespace Bracket

/-- The three bracket pairs. -/
def all : List Bracket := [paren, square, brace]

/-- No bracket pair is missing from the list. -/
theorem mem_all (b : Bracket) : b ∈ all := by
  cases b <;> decide

/-- The opening mark of the pair. -/
def opening : Bracket → Punctuation
  | paren => .lparen
  | square => .lbracket
  | brace => .lbrace

/-- The closing mark of the pair. -/
def closing : Bracket → Punctuation
  | paren => .rparen
  | square => .rbracket
  | brace => .rbrace

/-- The name of the pair in messages. -/
def describe : Bracket → String
  | paren => "parenthesis"
  | square => "bracket"
  | brace => "brace"

end Bracket

namespace Punctuation

/-- The bracket pair that the mark opens. -/
def opens : Punctuation → Option Bracket
  | lparen => some .paren
  | lbracket => some .square
  | lbrace => some .brace
  | _ => none

/-- The bracket pair that the mark closes. -/
def closes : Punctuation → Option Bracket
  | rparen => some .paren
  | rbracket => some .square
  | rbrace => some .brace
  | _ => none

theorem opens_eq_some_iff {p : Punctuation} {b : Bracket} :
    p.opens = some b ↔ p = b.opening := by
  cases p <;> cases b <;> decide

theorem closes_eq_some_iff {p : Punctuation} {b : Bracket} :
    p.closes = some b ↔ p = b.closing := by
  cases p <;> cases b <;> decide

end Punctuation

end ExprFront
