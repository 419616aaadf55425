import ExprFront.Proofs.Token.Recognised
import ExprFront.Token.Lexer

/-!
# The tokens of a text

A text has tokens exactly if it can be cut into the pieces of the lexical
grammar. The cut is unique, and its pieces are the tokens: each is laid at the
place after the pieces before it, and the end mark after the last.
-/

namespace ExprFront

open Lexeme

/-- The tokens of pieces that stand one after the other from a place on, and the end mark. -/
def tokensFrom (place : Cursor) : List Piece → List Token
  | [] => [Token.at place .eof 1 []]
  | piece :: pieces =>
      Token.at place piece.kind piece.kind.units piece.text ::
        tokensFrom (place.advanceAll piece.text) pieces

/-- The kind and the text of a token. -/
def Token.piece (t : Token) : Piece := ⟨t.kind, t.literal.toList⟩

@[simp] theorem Token.piece_at
    (place : Cursor) (kind : TokenKind) (size : Nat) (literal : List Char) :
    (Token.at place kind size literal).piece = ⟨kind, literal⟩ := by
  simp [Token.at, Token.piece]

theorem map_piece_tokensFrom
    (place : Cursor) (pieces : List Piece) :
    (tokensFrom place pieces).map Token.piece = pieces ++ [⟨.eof, []⟩] := by
  induction pieces generalizing place with
  | nil => simp [tokensFrom]
  | cons piece pieces ih => simp [tokensFrom, ih]

/-- A cut text is scanned into the tokens of its pieces. -/
theorem scan_of_cut
    {text : List Char} {pieces : List Piece} (hcut : Cut text pieces) (place : Cursor)
    (before : Array Token) :
    scan text place before = .ok (before ++ (tokensFrom place pieces).toArray) := by
  induction hcut generalizing place before with
  | nil =>
      rw [scan, tokensFrom, ← Array.push_eq_append]
  | @cons kind piece rest pieces hpiece _ ih =>
      obtain ⟨first, more, rfl, hrecognise⟩ := hpiece.recognisedAs
      rw [List.cons_append, scan, hrecognise]
      simp only [List.take_left, List.drop_left]
      rw [ih, tokensFrom]
      simp

/-- A text that is scanned can be cut. -/
theorem exists_cut_of_scan
    {text : List Char} {place : Cursor} {before tokens : Array Token}
    (hscan : scan text place before = .ok tokens) : ∃ pieces, Cut text pieces := by
  fun_induction scan text place before with
  | case1 => exact ⟨[], .nil⟩
  | case2 => cases hscan
  | case3 place before first rest lexeme hrecognise literal ih =>
      obtain ⟨pieces, hcut⟩ := ih hscan
      obtain ⟨-, hpiece⟩ := fits_of_recognise hrecognise
      have hcons := Cut.cons hpiece hcut
      rw [List.cons_append, List.take_append_drop] at hcons
      exact ⟨_, hcons⟩

/-- No piece is empty, so a cut text starts with its first piece. -/
theorem not_cut_nil_cons
    {piece : Piece} {pieces : List Piece} : ¬ Cut [] (piece :: pieces) := by
  intro hcut
  generalize htext : ([] : List Char) = text at hcut
  cases hcut with
  | cons hpiece _ =>
      obtain ⟨first, more, rfl, -⟩ := hpiece.recognisedAs
      cases htext

theorem Cut.unique
    {text text' : List Char} {pieces others : List Piece} (hcut : Cut text pieces)
    (hother : Cut text' others) (htext : text = text') : others = pieces := by
  induction hcut generalizing text' others with
  | nil =>
      subst htext
      cases others with
      | nil => rfl
      | cons piece others => exact absurd hother not_cut_nil_cons
  | cons hpiece hrest ih =>
      cases hother with
      | nil =>
          have hnil := Cut.cons hpiece hrest
          rw [htext] at hnil
          exact absurd hnil not_cut_nil_cons
      | cons hpiece' hrest' =>
          obtain ⟨rfl, rfl, rfl⟩ := hpiece.unique hpiece' htext
          rw [ih hrest' rfl]

/-- The tokens of a text are those of the pieces that it is cut into. -/
theorem tokenize_eq_ok_iff
    {source : String} {tokens : Array Token} :
    tokenize source = .ok tokens ↔
      ∃ pieces, Cut source.toList pieces ∧ tokens = (tokensFrom .origin pieces).toArray := by
  constructor
  · intro htokenize
    obtain ⟨pieces, hcut⟩ := exists_cut_of_scan htokenize
    refine ⟨pieces, hcut, ?_⟩
    have hscan := (scan_of_cut hcut .origin #[]).symm.trans htokenize
    simpa using hscan.symm
  · rintro ⟨pieces, hcut, rfl⟩
    simpa [tokenize] using scan_of_cut hcut .origin #[]

/-! ## Tokens without trivia -/

/-- Whether the piece is neither blank nor a comment. -/
def Piece.isKept (piece : Piece) : Bool := !piece.kind.isTrivia

/-- The tokens of a text that are kept are those of the pieces that it is cut into. -/
theorem lex_eq_ok_iff
    {source : String} {tokens : Array Token} :
    lex source = .ok tokens ↔
      ∃ pieces, Cut source.toList pieces ∧
        tokens = withoutTrivia (tokensFrom .origin pieces).toArray := by
  constructor
  · intro hlex
    cases htokenize : tokenize source with
    | error e =>
        rw [lex, htokenize] at hlex
        cases hlex
    | ok all =>
        rw [lex, htokenize] at hlex
        cases hlex
        obtain ⟨pieces, hcut, rfl⟩ := tokenize_eq_ok_iff.mp htokenize
        exact ⟨pieces, hcut, rfl⟩
  · rintro ⟨pieces, hcut, rfl⟩
    rw [lex, tokenize_eq_ok_iff.mpr ⟨pieces, hcut, rfl⟩]
    rfl

theorem map_piece_withoutTrivia
    (place : Cursor) (pieces : List Piece) :
    (withoutTrivia (tokensFrom place pieces).toArray).toList.map Token.piece =
      pieces.filter Piece.isKept ++ [⟨.eof, []⟩] := by
  have hkept : (fun t : Token => !t.kind.isTrivia) = Piece.isKept ∘ Token.piece := rfl
  rw [withoutTrivia, Array.toList_filter, hkept, ← List.filter_map, map_piece_tokensFrom,
    List.filter_append]
  rfl

/-- A text that can be cut has tokens, those of the pieces that are kept. -/
theorem Cut.exists_lex
    {text : String} {pieces : List Piece} (h : Cut text.toList pieces) :
    ∃ tokens, lex text = .ok tokens ∧
      tokens.toList.map Token.piece = pieces.filter Piece.isKept ++ [⟨.eof, []⟩] :=
  ⟨_, lex_eq_ok_iff.mpr ⟨pieces, h, rfl⟩, map_piece_withoutTrivia .origin pieces⟩

/-- A text has tokens exactly if it can be cut by the lexical grammar; there is one way to cut it,
and its pieces are the tokens before the end mark. -/
theorem tokenize_ok_iff_exists_cut
    (source : String) :
    ((∃ tokens, tokenize source = .ok tokens) ↔ ∃ pieces, Cut source.toList pieces) ∧
      ∀ pieces, Cut source.toList pieces →
        (∀ others, Cut source.toList others → others = pieces) ∧
        ∃ tokens, tokenize source = .ok tokens ∧
          tokens.toList.map Token.piece = pieces ++ [⟨.eof, []⟩] := by
  constructor
  · constructor
    · rintro ⟨tokens, htokenize⟩
      exact exists_cut_of_scan htokenize
    · rintro ⟨pieces, hcut⟩
      exact ⟨_, tokenize_eq_ok_iff.mpr ⟨pieces, hcut, rfl⟩⟩
  · intro pieces hcut
    refine ⟨fun others hother => hcut.unique hother rfl, _,
      tokenize_eq_ok_iff.mpr ⟨pieces, hcut, rfl⟩, ?_⟩
    exact map_piece_tokensFrom .origin pieces

/-- A number does not take the point of an ellipsis, and an operator no slash of a comment. -/
theorem tokenize_ok_iff_exists_cut_sample :
    ∃ tokens, tokenize "1...b+//" = .ok tokens ∧
      tokens.toList.map Token.piece =
        [⟨.number, ['1']⟩, ⟨.punctuation .ellipsis, ['.', '.', '.']⟩, ⟨.identifier, ['b']⟩,
          ⟨.operator .plus, ['+']⟩, ⟨.lineComment, ['/', '/']⟩, ⟨.eof, []⟩] := by
  have hcomment : IsPiece .lineComment ['/', '/'] [] := .lineComment (by simp) (by decide)
  have hplus : IsPiece (.operator .plus) ['+'] ['/', '/'] :=
    .operator (Operator.longestMatch?_eq_some_iff.mp (by decide)) (by decide)
  have hname : IsPiece .identifier ['b'] ['+', '/', '/'] :=
    .identifier (by decide) (by simp) (by decide)
  have hnumber : IsPiece .number ['1'] ['.', '.', '.', 'b', '+', '/', '/'] :=
    .number ⟨by simp, List.forall_mem_singleton.mpr (by decide)⟩ (by decide) (by simp)
  have hcut : Cut "1...b+//".toList _ :=
    .cons hnumber (.cons .ellipsis (.cons hname (.cons hplus (.cons hcomment .nil))))
  exact ((tokenize_ok_iff_exists_cut "1...b+//").2 _ hcut).2

end ExprFront
