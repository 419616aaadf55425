import ExprFront.Proofs.Vocabulary.Spelling
import Mathlib.Data.List.TakeWhile
import Mathlib.Data.List.Infix

/-!
# The lexical grammar

Which pieces a text may be cut into, said without a scanner: for each class its
pieces and what may not follow them. `IsPiece` is the grammar and `Cut` a whole
text cut by it.
-/

namespace ExprFront

open Lexeme

/-! ## Classes of pieces -/

/-- The text is at its end or goes on with a character that fails the test. -/
def EndsBefore (p : Char → Bool) (rest : List Char) : Prop :=
  ∀ c ∈ rest.head?, p c = false

instance (p : Char → Bool) : (rest : List Char) → Decidable (EndsBefore p rest)
  | [] => isTrue (by simp [EndsBefore])
  | c :: _ => decidable_of_iff (p c = false) (by simp [EndsBefore])

/-- At least one digit and nothing else. -/
def IsDigits (text : List Char) : Prop :=
  text ≠ [] ∧ ∀ d ∈ text, d.isDigit = true

/-- What stands between the quotes of a string literal. -/
inductive StringBody : List Char → Prop
  | nil : StringBody []
  | plain {c : Char} {body : List Char} (hc : c ∉ ['\'', '\\', '\n', '\r'])
      (hbody : StringBody body) : StringBody (c :: body)
  | escape {e : Char} {body : List Char} (he : e ∈ ['n', 't', 'r', '0', '\\', '\''])
      (hbody : StringBody body) : StringBody ('\\' :: e :: body)

/-- A comment starts the text. -/
def StartsComment (text : List Char) : Prop :=
  ['/', '/'] <+: text ∨ ['/', '*'] <+: text

instance (text : List Char) : Decidable (StartsComment text) :=
  inferInstanceAs (Decidable (_ ∨ _))

/-- The pieces of each kind, with the text that may follow them. -/
inductive IsPiece : TokenKind → (piece rest : List Char) → Prop
  | lineComment {body rest : List Char} (hbody : ∀ c ∈ body, c ≠ '\n')
      (hrest : EndsBefore (· != '\n') rest) : IsPiece .lineComment ('/' :: '/' :: body) rest
  /-- The end of the comment is the first one after its opening. -/
  | blockComment {body rest : List Char} (hfirst : ¬ ['*', '/'] <:+: body ++ ['*']) :
      IsPiece .blockComment ('/' :: '*' :: (body ++ ['*', '/'])) rest
  | string {body rest : List Char} (hbody : StringBody body) :
      IsPiece .string ('\'' :: (body ++ ['\''])) rest
  | newline {run rest : List Char} (hne : run ≠ []) (hrun : ∀ c ∈ run, c = '\n' ∨ c = '\r')
      (hrest : EndsBefore Text.isLineBreak rest) : IsPiece .newline run rest
  | whitespace {run rest : List Char} (hne : run ≠ [])
      (hrun : ∀ c ∈ run, Text.isBlank c = true ∧ c ≠ '\n' ∧ c ≠ '\r')
      (hrest : EndsBefore Text.isSpace rest) : IsPiece .whitespace run rest
  | number {digits rest : List Char} (hdigits : IsDigits digits)
      (hrest : EndsBefore isNameChar rest)
      (hpoint : ∀ d more, rest = '.' :: d :: more → d.isDigit = false) :
      IsPiece .number digits rest
  | real {whole fraction rest : List Char} (hwhole : IsDigits whole)
      (hfraction : IsDigits fraction) (hrest : EndsBefore isNameChar rest) :
      IsPiece .real (whole ++ '.' :: fraction) rest
  | suffixed {digits rest : List Char} {suffix : Char} {kind : TokenKind}
      (hdigits : IsDigits digits)
      (hsuffix : (suffix, kind) ∈ [('u', .unsigned), ('b', .bit), ('o', TokenKind.octet)])
      (hrest : EndsBefore isNameChar rest) : IsPiece kind (digits ++ [suffix]) rest
  | identifier {first : Char} {more rest : List Char} (hfirst : isNameStart first = true)
      (hmore : ∀ c ∈ more, isNameChar c = true) (hrest : EndsBefore isNameChar rest) :
      IsPiece .identifier (first :: more) rest
  | directive {d : Directive} {rest : List Char} (hrest : EndsBefore isNameChar rest) :
      IsPiece (.directive d) ('#' :: d.spelling.toList) rest
  | specialObject {o : SpecialObject} {rest : List Char} (hrest : EndsBefore isNameChar rest) :
      IsPiece (.specialObject o) ('@' :: o.spelling.toList) rest
  /-- The longest symbol operator, where no comment starts. -/
  | operator {op : Operator} {rest : List Char}
      (hlongest : op.LongestAt (op.spelling.toList ++ rest))
      (hcomment : ¬ StartsComment (op.spelling.toList ++ rest)) :
      IsPiece (.operator op) op.spelling.toList rest
  | mark {p : Punctuation} {rest : List Char} (hp : p ≠ .ellipsis) :
      IsPiece (.punctuation p) p.spelling.toList rest
  | ellipsis {rest : List Char} : IsPiece (.punctuation .ellipsis) ['.', '.', '.'] rest
  | dot {rest : List Char} (hrest : ¬ ['.', '.'] <+: rest) :
      IsPiece (.operator .dot) ['.'] rest

/-- A piece of a text with its kind. -/
structure Piece where
  kind : TokenKind
  text : List Char
deriving DecidableEq

/-- The text is cut into the pieces, each of which is allowed where it stands. -/
inductive Cut : (text : List Char) → List Piece → Prop
  | nil : Cut [] []
  | cons {kind : TokenKind} {piece rest : List Char} {pieces : List Piece}
      (hpiece : IsPiece kind piece rest) (hrest : Cut rest pieces) :
      Cut (piece ++ rest) (⟨kind, piece⟩ :: pieces)

/-- How many lexical units a piece of the kind combines. -/
def TokenKind.units : TokenKind → Nat
  | real => 3
  | unsigned | bit | octet | directive _ | specialObject _ => 2
  | _ => 1

/-! ## Runs of characters -/

section Runs

variable {p : Char → Bool} {text run rest : List Char}

theorem take_countWhile
    (p : Char → Bool) (text : List Char) : text.take (countWhile p text) = text.takeWhile p := by
  rw [countWhile]
  exact (List.prefix_iff_eq_take.mp (List.takeWhile_prefix p)).symm

theorem drop_countWhile
    (p : Char → Bool) (text : List Char) : text.drop (countWhile p text) = text.dropWhile p := by
  have happend : text.takeWhile p ++ text.drop (countWhile p text) =
      text.takeWhile p ++ text.dropWhile p := by
    rw [← take_countWhile, List.take_append_drop, take_countWhile,
      List.takeWhile_append_dropWhile]
  exact List.append_cancel_left happend

theorem countWhile_le_length
    (p : Char → Bool) (text : List Char) : countWhile p text ≤ text.length :=
  (List.takeWhile_prefix p).length_le

theorem endsBefore_drop_countWhile
    (p : Char → Bool) (text : List Char) : EndsBefore p (text.drop (countWhile p text)) := by
  intro c hc
  rw [drop_countWhile] at hc
  have hhead := List.head?_dropWhile_not p text
  rw [hc] at hhead
  simpa using hhead

theorem countWhile_append
    (hrun : ∀ c ∈ run, p c = true) (hrest : EndsBefore p rest) :
    countWhile p (run ++ rest) = run.length := by
  have hstop : rest.takeWhile p = [] := by
    cases rest with
    | nil => rfl
    | cons c rest =>
        have hc : p c = false := hrest c rfl
        simp [hc]
  rw [countWhile, List.takeWhile_append_of_pos hrun, hstop, List.append_nil]

theorem countWhile_eq_zero_iff
    {p : Char → Bool} {text : List Char} : countWhile p text = 0 ↔ EndsBefore p text := by
  constructor
  · intro hzero
    simpa [hzero] using endsBefore_drop_countWhile p text
  · intro hends
    exact (countWhile_append (by simp) hends : countWhile p ([] ++ text) = 0)

theorem mem_take_countWhile
    {c : Char} (hc : c ∈ text.take (countWhile p text)) : p c = true := by
  rw [take_countWhile] at hc
  exact List.mem_takeWhile_imp hc

end Runs

end ExprFront
