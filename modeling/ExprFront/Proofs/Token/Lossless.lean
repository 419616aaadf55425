import ExprFront.Proofs.Token.Scanned
import Mathlib.Data.List.Chain

/-!
# Nothing is lost

The tokens of a text cover it from end to end: their spans follow each other
without gap, their literals are the text, and each says in bytes, lines and
columns where it stands. All of it comes from one fact about places: the place
after some characters counts their bytes, their line feeds and the characters
since the last of these.
-/

namespace ExprFront

/-! ## Places -/

/-- The place after the characters of a text. -/
def Cursor.after (text : String) : Cursor :=
  ⟨text.utf8ByteSize, 1 + text.toList.count '\n',
    1 + (text.toList.reverse.takeWhile (· != '\n')).length⟩

theorem Cursor.advance_after
    (text : String) (c : Char) :
    (Cursor.after text).advance c = Cursor.after (text ++ String.ofList [c]) := by
  have hbytes : (String.ofList [c]).utf8ByteSize = c.utf8Size := by
    rw [← String.singleton_eq_ofList, String.utf8ByteSize_singleton]
  by_cases hc : c = '\n'
  · subst hc
    simp [Cursor.after, Cursor.advance, hbytes, Nat.add_assoc]
  · simp [Cursor.after, Cursor.advance, hc, Nat.add_comm]

theorem Cursor.advanceAll_after
    (text : String) (cs : List Char) :
    (Cursor.after text).advanceAll cs = Cursor.after (text ++ String.ofList cs) := by
  induction cs generalizing text with
  | nil => simp
  | cons c cs ih =>
      rw [Cursor.advanceAll_cons, Cursor.advance_after, ih, String.append_assoc,
        ← String.ofList_append, List.singleton_append]

/-! ## Tokens in their text -/

/-- The token is the slice of the text at its span, and its line and column are those of the first
character of the slice. -/
def Token.Marks (t : Token) (source : String) : Prop :=
  ∃ before later : String, source = before ++ t.literal ++ later ∧
    t.span = ⟨before.utf8ByteSize, before.utf8ByteSize + t.literal.utf8ByteSize⟩ ∧
    t.line = 1 + before.toList.count '\n' ∧
    t.column = 1 + (before.toList.reverse.takeWhile (· != '\n')).length

/-- The tokens cover the text without gap or overlap, and end with the only end mark. -/
structure Lossless (source : String) (tokens : List Token) : Prop where
  starts : tokens.head?.map (·.span.start) = some 0
  contiguous : tokens.IsChain fun t next => next.span.start = t.span.stop
  ends : ∃ body last, tokens = body ++ [last] ∧ last.kind = .eof ∧
    last.span = ⟨source.utf8ByteSize, source.utf8ByteSize⟩ ∧
    ∀ t ∈ body, t.kind ≠ .eof ∧ t.span.start < t.span.stop
  marks : ∀ t ∈ tokens, t.Marks source
  literals : String.join (tokens.map (·.literal)) = source

theorem Token.span_at
    (before : String) (kind : TokenKind) (size : Nat) (literal : List Char) :
    (Token.at (.after before) kind size literal).span =
      ⟨before.utf8ByteSize, before.utf8ByteSize + (String.ofList literal).utf8ByteSize⟩ := by
  rw [Token.at, Cursor.advanceAll_after, Cursor.after, Cursor.after, String.utf8ByteSize_append]

/-- A token that is laid after some characters of a text marks the next ones. -/
theorem Token.marks_at
    (before later : String) (kind : TokenKind) (size : Nat) (literal : List Char) :
    (Token.at (.after before) kind size literal).Marks
      (before ++ String.ofList literal ++ later) :=
  ⟨before, later, rfl, Token.span_at before kind size literal, rfl, rfl⟩

theorem IsPiece.kind_ne_eof
    {kind : TokenKind} {piece rest : List Char} (h : IsPiece kind piece rest) :
    kind ≠ .eof := by
  cases h with
  | suffixed _ hsuffix _ =>
      simp only [List.mem_cons, Prod.mk.injEq, List.not_mem_nil, or_false] at hsuffix
      rcases hsuffix with ⟨-, rfl⟩ | ⟨-, rfl⟩ | ⟨-, rfl⟩ <;> simp
  | _ => simp

theorem utf8ByteSize_ofList_cons
    (c : Char) (text : List Char) :
    (String.ofList (c :: text)).utf8ByteSize =
      c.utf8Size + (String.ofList text).utf8ByteSize := by
  rw [String.ofList_cons, String.utf8ByteSize_append, String.utf8ByteSize_singleton]

theorem IsPiece.utf8ByteSize_pos
    {kind : TokenKind} {piece rest : List Char} (h : IsPiece kind piece rest) :
    0 < (String.ofList piece).utf8ByteSize := by
  obtain ⟨first, more, rfl, -⟩ := h.recognisedAs
  rw [utf8ByteSize_ofList_cons]
  exact Nat.add_pos_left (Char.utf8Size_pos first) _

/-! ## Laid tokens -/

theorem head?_tokensFrom
    (before : String) (pieces : List Piece) :
    (tokensFrom (.after before) pieces).head?.map (·.span.start) = some before.utf8ByteSize := by
  cases pieces <;> simp [tokensFrom, Token.span_at]

theorem isChain_tokensFrom
    (before : String) (pieces : List Piece) :
    (tokensFrom (.after before) pieces).IsChain fun t next => next.span.start = t.span.stop := by
  induction pieces generalizing before with
  | nil => exact .singleton _
  | cons piece pieces ih =>
      rw [tokensFrom, Cursor.advanceAll_after, List.isChain_cons]
      refine ⟨?_, ih _⟩
      intro next hnext
      have hstart := head?_tokensFrom (before ++ String.ofList piece.text) pieces
      rw [Option.mem_def.mp hnext, String.utf8ByteSize_append] at hstart
      rw [Token.span_at]
      exact Option.some.inj hstart

/-- The tokens of a cut text after some characters end with the end mark and mark the text. -/
theorem ends_and_marks_tokensFrom
    {text : List Char} {pieces : List Piece} (hcut : Cut text pieces) (before : String) :
    (∃ body last, tokensFrom (.after before) pieces = body ++ [last] ∧ last.kind = .eof ∧
      last.span = ⟨(before ++ String.ofList text).utf8ByteSize,
        (before ++ String.ofList text).utf8ByteSize⟩ ∧
      ∀ t ∈ body, t.kind ≠ .eof ∧ t.span.start < t.span.stop) ∧
    ∀ t ∈ tokensFrom (.after before) pieces, t.Marks (before ++ String.ofList text) := by
  induction hcut generalizing before with
  | nil =>
      constructor
      · refine ⟨[], _, rfl, rfl, ?_, by simp⟩
        rw [Token.span_at]
        simp
      · intro t ht
        rw [List.mem_singleton.mp ht]
        simpa using Token.marks_at before "" .eof 1 []
  | @cons kind piece rest pieces hpiece _ ih =>
      rw [tokensFrom, Cursor.advanceAll_after]
      have hsource : before ++ String.ofList (piece ++ rest) =
          before ++ String.ofList piece ++ String.ofList rest := by
        rw [String.ofList_append, String.append_assoc]
      obtain ⟨⟨body, last, htokens, hkind, hspan, hbody⟩, hmarks⟩ :=
        ih (before ++ String.ofList piece)
      rw [← hsource] at hspan hmarks
      constructor
      · refine ⟨_ :: body, last, by rw [htokens, List.cons_append], hkind, hspan, ?_⟩
        intro t ht
        rcases List.mem_cons.mp ht with rfl | ht
        · refine ⟨hpiece.kind_ne_eof, ?_⟩
          rw [Token.span_at]
          exact Nat.lt_add_of_pos_right hpiece.utf8ByteSize_pos
        · exact hbody t ht
      · intro t ht
        rcases List.mem_cons.mp ht with rfl | ht
        · rw [hsource]
          exact Token.marks_at before _ _ _ piece
        · exact hmarks t ht

theorem join_literals_tokensFrom
    {text : List Char} {pieces : List Piece} (hcut : Cut text pieces) (place : Cursor) :
    String.join ((tokensFrom place pieces).map (·.literal)) = String.ofList text := by
  induction hcut generalizing place with
  | nil => rfl
  | cons hpiece _ ih =>
      rw [tokensFrom, List.map_cons, String.join_cons, ih, String.ofList_append]
      rfl

theorem lossless_of_cut
    {source : String} {pieces : List Piece} (hcut : Cut source.toList pieces) :
    Lossless source (tokensFrom .origin pieces) := by
  obtain ⟨hends, hmarks⟩ := ends_and_marks_tokensFrom hcut ""
  rw [String.ofList_toList, String.empty_append] at hends hmarks
  refine ⟨head?_tokensFrom "" pieces, isChain_tokensFrom "" pieces, hends, hmarks, ?_⟩
  rw [join_literals_tokensFrom hcut, String.ofList_toList]

/-- The tokens of a text lose nothing of it and say exactly where they stand; without the trivia,
they are unchanged and in the same order. -/
theorem lossless_of_tokenize
    (source : String) (tokens : Array Token) (h : tokenize source = .ok tokens) :
    Lossless source tokens.toList ∧
      ∃ kept, lex source = .ok kept ∧
        kept.toList = tokens.toList.filter fun t => !t.kind.isTrivia := by
  constructor
  · obtain ⟨pieces, hcut, rfl⟩ := tokenize_eq_ok_iff.mp h
    exact lossless_of_cut hcut
  · refine ⟨withoutTrivia tokens, by rw [lex, h]; rfl, ?_⟩
    rw [withoutTrivia, Array.toList_filter]

/-- A comment over two lines and a character of several bytes stand before the last name. -/
theorem lossless_of_tokenize_sample :
    ∃ tokens, tokenize "/*é\n*/ x" = .ok tokens ∧ Lossless "/*é\n*/ x" tokens.toList ∧
      tokens.toList.map (fun t => (t.span, t.line, t.column)) =
        [(⟨0, 7⟩, 1, 1), (⟨7, 8⟩, 2, 3), (⟨8, 9⟩, 2, 4), (⟨9, 9⟩, 2, 5)] := by
  have hcomment : IsPiece .blockComment ('/' :: '*' :: (['é', '\n'] ++ ['*', '/'])) [' ', 'x'] :=
    .blockComment (by decide)
  have hblank : IsPiece .whitespace [' '] ['x'] :=
    .whitespace (by simp) (List.forall_mem_singleton.mpr (by decide)) (by decide)
  have hname : IsPiece .identifier ['x'] [] := .identifier (by decide) (by simp) (by decide)
  have hcut : Cut "/*é\n*/ x".toList _ := .cons hcomment (.cons hblank (.cons hname .nil))
  have htokenize := tokenize_eq_ok_iff.mpr ⟨_, hcut, rfl⟩
  exact ⟨_, htokenize, (lossless_of_tokenize _ _ htokenize).1, by decide⟩

end ExprFront
