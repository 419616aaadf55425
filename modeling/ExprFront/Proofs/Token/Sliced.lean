import ExprFront.Proofs.Token.Joined
import ExprFront.Proofs.Token.Lossless
import ExprFront.Tree.Basic

/-!
# Slices of a text

A slice of a text that starts where one token starts and ends where another ends
has the tokens in between and no others. The lexer can start at any token,
because a piece does not depend on what stands before it; and it can stop after
any token, because whatever may follow a piece may also be missing.
-/

namespace ExprFront

open Lexeme

/-! ## Texts that end early -/

theorem EndsBefore.truncated
    {p : Char → Bool} {rest more : List Char} (h : EndsBefore p (rest ++ more)) :
    EndsBefore p rest := by
  intro c hc
  apply h c
  rw [List.head?_append, Option.mem_def.mp hc]
  rfl

/-- A piece stays one if the text ends early. -/
theorem IsPiece.truncated
    {kind : TokenKind} {piece rest more : List Char} (h : IsPiece kind piece (rest ++ more)) :
    IsPiece kind piece rest := by
  generalize htext : rest ++ more = text at h
  cases h with
  | lineComment hbody hrest => exact .lineComment hbody (htext ▸ hrest).truncated
  | blockComment hfirst => exact .blockComment hfirst
  | string hbody => exact .string hbody
  | newline hne hrun hrest => exact .newline hne hrun (htext ▸ hrest).truncated
  | whitespace hne hrun hrest => exact .whitespace hne hrun (htext ▸ hrest).truncated
  | number hdigits hrest hpoint =>
      refine .number hdigits (htext ▸ hrest).truncated fun d later hlater => ?_
      apply hpoint d (later ++ more)
      rw [← htext, hlater]
      rfl
  | real hwhole hfraction hrest => exact .real hwhole hfraction (htext ▸ hrest).truncated
  | suffixed hdigits hsuffix hrest => exact .suffixed hdigits hsuffix (htext ▸ hrest).truncated
  | identifier hfirst hmore hrest => exact .identifier hfirst hmore (htext ▸ hrest).truncated
  | directive hrest => exact .directive (htext ▸ hrest).truncated
  | specialObject hrest => exact .specialObject (htext ▸ hrest).truncated
  | @operator op _ hlongest hcomment =>
      have hlater : op.spelling.toList ++ rest <+: op.spelling.toList ++ text := by
        rw [← htext, ← List.append_assoc]
        exact List.prefix_append _ _
      refine .operator ⟨hlongest.1, List.prefix_append _ _, fun o hsymbol ho => ?_⟩ ?_
      · exact hlongest.2.2 o hsymbol (ho.trans hlater)
      · rintro (hline | hblock)
        · exact hcomment (.inl (hline.trans hlater))
        · exact hcomment (.inr (hblock.trans hlater))
  | mark hp => exact .mark hp
  | ellipsis => exact .ellipsis
  | dot hrest =>
      refine .dot fun hpoints => hrest ?_
      rw [← htext]
      exact hpoints.trans (List.prefix_append _ _)

theorem Joins.truncated
    {pieces : List Piece} {rest more : List Char} (h : Joins pieces (rest ++ more)) :
    Joins pieces rest := by
  induction pieces with
  | nil => trivial
  | cons piece pieces ih =>
      obtain ⟨hpiece, hpieces⟩ := h
      rw [← List.append_assoc] at hpiece
      exact ⟨hpiece.truncated, ih hpieces⟩

/-- The pieces of a text are the text, and each is allowed where it stands. -/
theorem Cut.joins
    {text : List Char} {pieces : List Piece} (h : Cut text pieces) :
    joined pieces = text ∧ Joins pieces [] := by
  induction h with
  | nil => exact ⟨rfl, trivial⟩
  | cons hpiece _ ih =>
      obtain ⟨rfl, hjoins⟩ := ih
      exact ⟨rfl, by rwa [List.append_nil], hjoins⟩

/-- Neighbouring pieces of a text are the pieces of their own text. -/
theorem Cut.middle
    {text : List Char} {front middle back : List Piece} (h : Cut text (front ++ (middle ++ back))) :
    Cut (joined middle) middle := by
  obtain ⟨-, hjoins⟩ := h.joins
  obtain ⟨hmiddle, -⟩ := joins_append_iff.mp (joins_append_iff.mp hjoins).2
  have hend : Joins middle ([] ++ (joined back ++ [])) := hmiddle
  exact hend.truncated.cut

/-! ## Bytes -/

theorem dropBytes_cons
    {n : Nat} (hn : 0 < n) (c : Char) (text : List Char) :
    dropBytes n (c :: text) = dropBytes (n - c.utf8Size) text := by
  cases n with
  | zero => cases hn
  | succ n => rfl

theorem takeBytes_cons
    {n : Nat} (hn : 0 < n) (c : Char) (text : List Char) :
    takeBytes n (c :: text) = c :: takeBytes (n - c.utf8Size) text := by
  cases n with
  | zero => cases hn
  | succ n => rfl

theorem dropBytes_append
    (front back : List Char) :
    dropBytes (String.ofList front).utf8ByteSize (front ++ back) = back := by
  induction front with
  | nil => cases back <;> rfl
  | cons c front ih =>
      rw [utf8ByteSize_ofList_cons, List.cons_append,
        dropBytes_cons (Nat.add_pos_left c.utf8Size_pos _), Nat.add_sub_cancel_left, ih]

theorem takeBytes_append
    (front back : List Char) :
    takeBytes (String.ofList front).utf8ByteSize (front ++ back) = front := by
  induction front with
  | nil => cases back <;> rfl
  | cons c front ih =>
      rw [utf8ByteSize_ofList_cons, List.cons_append,
        takeBytes_cons (Nat.add_pos_left c.utf8Size_pos _), Nat.add_sub_cancel_left, ih]

/-- The slice between two places of a text is what stands between them. -/
theorem Span.slice_append
    (front inside back : List Char) :
    Span.slice ⟨(String.ofList front).utf8ByteSize, (String.ofList (front ++ inside)).utf8ByteSize⟩
      (front ++ (inside ++ back)) = inside := by
  rw [slice, dropBytes_append, length, String.ofList_append, String.utf8ByteSize_append,
    Nat.add_sub_cancel_left, takeBytes_append]

/-! ## From one token to another -/

/-- A kept token stands where the pieces before it end. -/
theorem getElem?_filter_tokensFrom
    (before : String) (front : List Piece) {piece : Piece} (hkept : piece.isKept = true)
    (back : List Piece) :
    ((tokensFrom (.after before) (front ++ piece :: back)).filter
        (fun t => !t.kind.isTrivia))[(front.filter Piece.isKept).length]? =
      some (Token.at (.after (before ++ String.ofList (joined front))) piece.kind piece.kind.units
        piece.text) := by
  induction front generalizing before with
  | nil =>
      rw [List.nil_append, tokensFrom, List.filter_cons_of_pos (by exact hkept)]
      simp
  | cons first front ih =>
      rw [List.cons_append, tokensFrom, Cursor.advanceAll_after, joined_cons,
        String.ofList_append, ← String.append_assoc, ← ih]
      by_cases hfirst : first.isKept = true
      · rw [List.filter_cons_of_pos (by exact hfirst), List.filter_cons_of_pos hfirst]
        rfl
      · rw [List.filter_cons_of_neg (by exact hfirst), List.filter_cons_of_neg hfirst]

/-- The span of a kept token goes from the end of the pieces before it to its own. -/
theorem exists_getElem?_withoutTrivia
    (front : List Piece) {piece : Piece} (hkept : piece.isKept = true) (back : List Piece) :
    ∃ t, (withoutTrivia (tokensFrom .origin (front ++ piece :: back)).toArray)[
        (front.filter Piece.isKept).length]? = some t ∧
      t.span = ⟨(String.ofList (joined front)).utf8ByteSize,
        (String.ofList (joined (front ++ [piece]))).utf8ByteSize⟩ := by
  have hat := getElem?_filter_tokensFrom "" front hkept back
  rw [String.empty_append] at hat
  refine ⟨Token.at (.after (String.ofList (joined front))) piece.kind piece.kind.units piece.text,
    ?_, ?_⟩
  · rw [withoutTrivia, ← Array.getElem?_toList, Array.toList_filter]
    exact hat
  · rw [Token.span_at, ← String.utf8ByteSize_append, ← String.ofList_append, joined_append,
      joined_cons, joined_nil, List.append_nil]

/-- The pieces before and after the one that is kept at an index. -/
theorem exists_kept_piece
    {pieces : List Piece} {index : Nat} (h : index < (pieces.filter Piece.isKept).length) :
    ∃ front piece back, pieces = front ++ piece :: back ∧ piece.isKept = true ∧
      (front.filter Piece.isKept).length = index := by
  have hsplit : pieces.filter Piece.isKept =
      (pieces.filter Piece.isKept).take index ++ (pieces.filter Piece.isKept).drop index :=
    (List.take_append_drop _ _).symm
  obtain ⟨front, later, hpieces, hfront, hlater⟩ := List.filter_eq_append_iff.mp hsplit
  obtain ⟨piece, more, hdrop⟩ : ∃ piece more,
      (pieces.filter Piece.isKept).drop index = piece :: more :=
    ⟨_, _, List.drop_eq_getElem_cons h⟩
  rw [hdrop] at hlater
  obtain ⟨skipped, back, rfl, hskipped, hkept, -⟩ := List.filter_eq_cons_iff.mp hlater
  refine ⟨front ++ skipped, piece, back, by rw [hpieces, List.append_assoc], hkept, ?_⟩
  rw [List.filter_append, List.filter_eq_nil_iff.mpr hskipped, List.append_nil, hfront,
    List.length_take_of_le (Nat.le_of_lt h)]

/-- The pieces that a range of kept ones spans, with those before and after them. -/
structure Spanned (pieces : List Piece) (range : TokenRange) (front middle back : List Piece) :
    Prop where
  eq : pieces = front ++ (middle ++ back)
  first : ∃ piece later, middle = piece :: later ∧ piece.isKept = true
  last : ∃ inside piece, middle = inside ++ [piece] ∧ piece.isKept = true
  start : (front.filter Piece.isKept).length = range.start
  stop : ((front ++ middle).filter Piece.isKept).length = range.stop

theorem exists_spanned
    {pieces : List Piece} {range : TokenRange} (hstart : range.start < range.stop)
    (hstop : range.stop ≤ (pieces.filter Piece.isKept).length) :
    ∃ front middle back, Spanned pieces range front middle back := by
  obtain ⟨front, first, later, rfl, hfirst, hfront⟩ :=
    exists_kept_piece (Nat.lt_of_lt_of_le hstart hstop)
  rw [List.filter_append, List.length_append, hfront] at hstop
  have hbound : range.stop - 1 - range.start <
      ((first :: later).filter Piece.isKept).length := by
    omega
  obtain ⟨inside, last, back, hlater, hlast, hinside⟩ := exists_kept_piece hbound
  refine ⟨front, inside ++ [last], back, ⟨by simp [hlater], ?_, ⟨inside, last, rfl, hlast⟩, hfront,
    ?_⟩⟩
  · cases inside with
    | nil =>
        obtain ⟨rfl, -⟩ := List.cons.inj hlater
        exact ⟨first, [], rfl, hfirst⟩
    | cons piece inside =>
        obtain ⟨rfl, -⟩ := List.cons.inj hlater
        exact ⟨first, inside ++ [last], rfl, hfirst⟩
  · rw [List.filter_append, List.filter_append, List.filter_cons_of_pos hlast]
    simp only [List.length_append, List.filter_nil, List.length_singleton]
    omega

namespace Spanned

variable {pieces front middle back : List Piece} {range : TokenRange}

/-- The kept ones among the spanned pieces are those of the range. -/
theorem filter_eq
    (h : Spanned pieces range front middle back) :
    middle.filter Piece.isKept =
      (pieces.filter Piece.isKept).extract range.start range.stop := by
  have hstart := h.start
  have hstop := h.stop
  rw [List.filter_append, List.length_append] at hstop
  rw [h.eq, List.filter_append, List.filter_append, List.extract_eq_take_drop, ← hstart,
    List.drop_left, (by omega : range.stop - (front.filter Piece.isKept).length =
      (middle.filter Piece.isKept).length), List.take_left]

/-- The source of a range of tokens is the text of the pieces that it spans. -/
theorem sourceText_eq
    (h : Spanned pieces range front middle back) :
    Tree.sourceText (withoutTrivia (tokensFrom .origin pieces).toArray) (joined pieces) range =
      String.ofList (joined middle) := by
  obtain ⟨first, later, hfirst, hkept⟩ := h.first
  obtain ⟨inside, last, hlast, hkept'⟩ := h.last
  obtain ⟨t, ht, hspan⟩ := exists_getElem?_withoutTrivia front hkept (later ++ back)
  obtain ⟨u, hu, hspan'⟩ := exists_getElem?_withoutTrivia (front ++ inside) hkept' back
  have hpieces : pieces = front ++ first :: (later ++ back) := by
    rw [h.eq, hfirst, List.cons_append]
  have hpieces' : pieces = (front ++ inside) ++ last :: back := by
    rw [h.eq, hlast]
    simp
  have hstop := h.stop
  rw [hlast, ← List.append_assoc, List.filter_append, List.filter_cons_of_pos hkept',
    List.length_append, List.filter_nil, List.length_singleton] at hstop
  have hstart := h.start
  have hempty : range.isEmpty = false := by
    rw [List.filter_append, List.length_append] at hstop
    simp only [TokenRange.isEmpty, decide_eq_false_iff_not]
    omega
  rw [← hpieces, hstart] at ht
  rw [← hpieces', (by omega : ((front ++ inside).filter Piece.isKept).length = range.stop - 1)]
    at hu
  rw [Tree.sourceText, if_neg (by simp [hempty]), ht, hu]
  simp only [hspan, hspan', List.append_assoc, ← hlast]
  rw [h.eq, joined_append, joined_append, joined_append, Span.slice_append]

end Spanned

/-- The source of a range of tokens has the tokens of the range, in other places. -/
theorem exists_lex_sourceText
    {source : String} {tokens : Array Token} (h : lex source = .ok tokens) {range : TokenRange}
    (hstart : range.start < range.stop) (hstop : range.stop < tokens.size) :
    ∃ again, lex (Tree.sourceText tokens source.toList range) = .ok again ∧
      again.toList.map Token.piece =
        (tokens.extract range.start range.stop).toList.map Token.piece ++ [⟨.eof, []⟩] := by
  obtain ⟨pieces, hcut, rfl⟩ := lex_eq_ok_iff.mp h
  have hpieces := map_piece_withoutTrivia .origin pieces
  have hsize := congrArg List.length hpieces
  rw [List.length_map, Array.length_toList, List.length_append, List.length_singleton] at hsize
  obtain ⟨front, middle, back, hspanned⟩ := exists_spanned hstart
    (by omega : range.stop ≤ (pieces.filter Piece.isKept).length)
  rw [← hcut.joins.1, hspanned.sourceText_eq]
  rw [hspanned.eq] at hcut
  have hmiddle : Cut (String.ofList (joined middle)).toList middle := by
    rw [String.toList_ofList]
    exact hcut.middle
  obtain ⟨again, hagain, hmap⟩ := hmiddle.exists_lex
  refine ⟨again, hagain, ?_⟩
  rw [hmap, hspanned.filter_eq, Array.toList_extract, List.extract_eq_take_drop,
    List.extract_eq_take_drop, List.map_take, List.map_drop, hpieces,
    List.drop_append_of_le_length (by omega), List.take_append_of_le_length (by simp; omega)]

end ExprFront
