import ExprFront.Proofs.Token.Scanned

/-!
# Literals put together

A piece may stand before another text than the one that it was cut from, as long
as that text does not go on with it: an operand before a text that does not
start with a character of a name, a number also not with a point and a digit, an
operator before a text that does not start with a character of an operator.
Pieces that are put together in this way are the tokens of the whole text.
-/

namespace ExprFront

open Lexeme

/-! ## Pieces one after the other -/

/-- The text of pieces, one after the other. -/
def joined (pieces : List Piece) : List Char := pieces.flatMap (·.text)

@[simp] theorem joined_nil : joined [] = [] := rfl

@[simp] theorem joined_cons
    (piece : Piece) (pieces : List Piece) :
    joined (piece :: pieces) = piece.text ++ joined pieces :=
  List.flatMap_cons

@[simp] theorem joined_append
    (front back : List Piece) : joined (front ++ back) = joined front ++ joined back :=
  List.flatMap_append

/-- Each piece is allowed before the pieces after it and the rest. -/
def Joins : List Piece → (rest : List Char) → Prop
  | [], _ => True
  | piece :: pieces, rest =>
      IsPiece piece.kind piece.text (joined pieces ++ rest) ∧ Joins pieces rest

theorem joins_append_iff
    {front back : List Piece} {rest : List Char} :
    Joins (front ++ back) rest ↔ Joins front (joined back ++ rest) ∧ Joins back rest := by
  induction front with
  | nil => simp [Joins]
  | cons piece front ih =>
      simp only [List.cons_append, Joins, ih, joined_append, List.append_assoc, and_assoc]

theorem Joins.cut
    {pieces : List Piece} (h : Joins pieces []) : Cut (joined pieces) pieces := by
  induction pieces with
  | nil => exact .nil
  | cons piece pieces ih =>
      obtain ⟨hpiece, hrest⟩ := h
      rw [List.append_nil] at hpiece
      exact .cons hpiece (ih hrest)

/-- The token is a piece of some text. -/
def Token.IsLexed (t : Token) : Prop := ∃ rest, IsPiece t.kind t.literal.toList rest

theorem Cut.exists_isPiece
    {text : List Char} {pieces : List Piece} (h : Cut text pieces) {piece : Piece}
    (hmem : piece ∈ pieces) : ∃ rest, IsPiece piece.kind piece.text rest := by
  induction h with
  | nil => cases hmem
  | cons hpiece _ ih =>
      rcases List.mem_cons.mp hmem with rfl | hmem
      · exact ⟨_, hpiece⟩
      · exact ih hmem

/-- The tokens of a text are pieces of it, apart from the end mark; blanks and comments are none of
them. -/
theorem of_mem_lex
    {source : String} {tokens : Array Token} (h : lex source = .ok tokens) {t : Token}
    (ht : t ∈ tokens) : t.kind.isTrivia = false ∧ (t.IsLexed ∨ t.piece = ⟨.eof, []⟩) := by
  obtain ⟨pieces, hcut, rfl⟩ := lex_eq_ok_iff.mp h
  obtain ⟨hmem, hkept⟩ := Array.mem_filter.mp ht
  have hpiece := List.mem_map_of_mem (f := Token.piece) (List.mem_toArray.mp hmem)
  rw [map_piece_tokensFrom, List.mem_append, List.mem_singleton] at hpiece
  refine ⟨by simpa using hkept, ?_⟩
  rcases hpiece with hpiece | heof
  · exact .inl (hcut.exists_isPiece hpiece)
  · exact .inr heof

theorem isLexed_of_lex
    {source : String} {tokens : Array Token} (h : lex source = .ok tokens) {t : Token}
    (ht : t ∈ tokens) (hkind : t.kind ≠ .eof) : t.IsLexed := by
  rcases (of_mem_lex h ht).2 with hlexed | heof
  · exact hlexed
  · exact absurd (congrArg Piece.kind heof) hkind

/-- A text that is made of pieces has their tokens, if none of them is blank or a comment. -/
theorem exists_lex_of_joins
    {text : String} {pieces : List Piece} (htext : text.toList = joined pieces)
    (h : Joins pieces []) (hkinds : ∀ piece ∈ pieces, piece.kind.isTrivia = false) :
    ∃ tokens, lex text = .ok tokens ∧
      tokens.toList.map Token.piece = pieces ++ [⟨.eof, []⟩] := by
  have hcut := h.cut
  rw [← htext] at hcut
  have hkept : pieces.filter Piece.isKept = pieces := by
    rw [List.filter_eq_self]
    intro piece hpiece
    simp [Piece.isKept, hkinds piece hpiece]
  obtain ⟨tokens, hlex, hmap⟩ := hcut.exists_lex
  exact ⟨tokens, hlex, by rw [hmap, hkept]⟩

/-! ## What may follow -/

/-- The text does not start with a point and a digit. -/
def PointFree (rest : List Char) : Prop := ∀ d more, rest = '.' :: d :: more → d.isDigit = false

/-- Any operand may end before the text. -/
structure EndsOperand (rest : List Char) : Prop where
  name : EndsBefore isNameChar rest
  point : PointFree rest

/-- The text does not start with a character of an operator. -/
def SignFree (rest : List Char) : Prop :=
  ∀ c ∈ rest.head?, ∀ op : Operator, c ∉ op.spelling.toList

/-- A character of an operator is one of no other class of pieces. -/
theorem Operator.of_mem_spelling
    (op : Operator) : ∀ c ∈ op.spelling.toList, isNameChar c = false ∧ c ≠ '\'' ∧ c ≠ '@' ∧
      mark? c = none ∧ c ≠ '\n' := by
  -- The test is run along the spelling, since membership alone would let it range over all
  -- characters.
  have htest : op.spelling.toList.all (fun c => decide (isNameChar c = false ∧ c ≠ '\'' ∧
      c ≠ '@' ∧ mark? c = none ∧ c ≠ '\n')) = true := by
    cases op <;> decide
  intro c hc
  exact of_decide_eq_true (List.all_eq_true.mp htest c hc)

/-- An operand starts with such a character. -/
def StartsOperand (c : Char) : Prop := isNameChar c = true ∨ c = '\'' ∨ c = '@'

theorem signFree_of_startsOperand
    {c : Char} (h : StartsOperand c) (more : List Char) : SignFree (c :: more) := by
  intro c' hc op hmem
  obtain rfl : c = c' := by simpa using hc
  obtain ⟨hname, hquote, hsign, -⟩ := op.of_mem_spelling c hmem
  rcases h with h | h | h
  · rw [hname] at h
    cases h
  · exact hquote h
  · exact hsign h

/-- A text that starts with a mark can follow anything. -/
theorem signFree_mark
    {p : Punctuation} (hp : p ≠ .ellipsis) (rest : List Char) :
    SignFree (p.spelling.toList ++ rest) := by
  obtain ⟨c, hc⟩ : ∃ c, p.spelling.toList = [c] ∧ mark? c = some p := by
    cases p <;> first | contradiction | exact ⟨_, rfl, rfl⟩
  rw [hc.1]
  intro c' hc' op hmem
  obtain rfl : c = c' := by simpa using hc'
  have hnone := (op.of_mem_spelling c hmem).2.2.2.1
  rw [hc.2] at hnone
  cases hnone

theorem endsOperand_mark
    {p : Punctuation} (hp : p ≠ .ellipsis) (rest : List Char) :
    EndsOperand (p.spelling.toList ++ rest) := by
  obtain ⟨c, hc, hname, hpoint⟩ :
      ∃ c, p.spelling.toList = [c] ∧ isNameChar c = false ∧ c ≠ '.' := by
    cases p <;> first | contradiction | exact ⟨_, rfl, by decide⟩
  rw [hc]
  refine ⟨fun c' hc' => ?_, fun d more heq => ?_⟩
  · obtain rfl : c = c' := by simpa using hc'
    exact hname
  · exact absurd (List.cons.inj heq).1 hpoint

/-- After an operand that is no plain number, any operator may stand. -/
theorem endsBefore_operator
    (op : Operator) (rest : List Char) : EndsBefore isNameChar (op.spelling.toList ++ rest) := by
  obtain ⟨c, more, hspelling⟩ : ∃ c more, op.spelling.toList = c :: more := by
    cases op <;> exact ⟨_, _, rfl⟩
  rw [hspelling]
  intro c' hc
  obtain rfl : c = c' := by simpa using hc
  exact (op.of_mem_spelling c (by simp [hspelling])).1

/-- After a plain number too, unless it is a point. -/
theorem endsOperand_operator
    {op : Operator} (hop : op ≠ .dot) (rest : List Char) :
    EndsOperand (op.spelling.toList ++ rest) := by
  refine ⟨endsBefore_operator op rest, fun d more heq => ?_⟩
  obtain ⟨c, tail, hspelling, hc⟩ : ∃ c tail, op.spelling.toList = c :: tail ∧ c ≠ '.' := by
    cases op <;> first | contradiction | exact ⟨_, _, rfl, by decide⟩
  rw [hspelling] at heq
  exact absurd (List.cons.inj heq).1 hc

/-! ## Pieces before another text -/

theorem StringBody.newline_not_mem
    {body : List Char} (h : StringBody body) : '\n' ∉ body := by
  induction h with
  | nil => simp
  | @plain c body hc _ ih =>
      rw [List.mem_cons, not_or]
      refine ⟨?_, ih⟩
      rintro rfl
      simp at hc
  | @escape e body he _ ih =>
      rw [List.mem_cons, List.mem_cons, not_or, not_or]
      refine ⟨by decide, ?_, ih⟩
      rintro rfl
      simp at he

namespace IsPiece

variable {kind : TokenKind} {piece rest rest' : List Char}

/-- An operand that does not go on in the text that follows it. -/
theorem operand_before
    (h : IsPiece kind piece rest) (hoperand : kind.isOperand = true)
    (hname : EndsBefore isNameChar rest') (hpoint : kind = .number → PointFree rest') :
    IsPiece kind piece rest' := by
  cases h with
  | string hbody => exact .string hbody
  | number hdigits _ _ => exact .number hdigits hname (hpoint rfl)
  | real hwhole hfraction _ => exact .real hwhole hfraction hname
  | suffixed hdigits hsuffix _ => exact .suffixed hdigits hsuffix hname
  | identifier hfirst hmore _ => exact .identifier hfirst hmore hname
  | specialObject _ => exact .specialObject hname
  | _ => cases hoperand

theorem exists_cons_of_operand
    (h : IsPiece kind piece rest) (hoperand : kind.isOperand = true) :
    ∃ c more, piece = c :: more ∧ StartsOperand c := by
  have hdigits : ∀ {digits : List Char}, IsDigits digits →
      ∃ c more, digits = c :: more ∧ StartsOperand c := by
    rintro digits ⟨hne, hall⟩
    obtain ⟨c, more, rfl⟩ := List.exists_cons_of_ne_nil hne
    have hdigit := hall c List.mem_cons_self
    exact ⟨c, more, rfl, .inl (by simp [isNameChar, Char.isAlphanum, hdigit])⟩
  cases h with
  | string hbody => exact ⟨_, _, rfl, .inr (.inl rfl)⟩
  | number h _ _ => exact hdigits h
  | real h _ _ =>
      obtain ⟨c, more, rfl, hc⟩ := hdigits h
      exact ⟨c, _, rfl, hc⟩
  | suffixed h _ _ =>
      obtain ⟨c, more, rfl, hc⟩ := hdigits h
      exact ⟨c, _, rfl, hc⟩
  | identifier hfirst _ _ =>
      refine ⟨_, _, rfl, .inl ?_⟩
      simp only [isNameStart, isNameChar, Char.isAlphanum, Bool.or_eq_true] at hfirst ⊢
      tauto
  | specialObject _ => exact ⟨_, _, rfl, .inr (.inr rfl)⟩
  | _ => cases hoperand

/-- A punctuation mark of one character stands before any text. -/
theorem mark_before
    {p : Punctuation} (h : IsPiece (.punctuation p) piece rest) (hp : p ≠ .ellipsis) :
    piece = p.spelling.toList ∧ ∀ rest', IsPiece (.punctuation p) piece rest' := by
  cases h with
  | mark _ => exact ⟨rfl, fun _ => .mark hp⟩
  | ellipsis => contradiction
  | suffixed _ hsuffix _ => simp at hsuffix

/-- What stands at the start of a text is part of its first half, or goes on in the second. -/
theorem prefix_append_cases
    {front half other : List Char} (h : front <+: half ++ other) :
    front <+: half ∨ ∃ c ∈ other.head?, c ∈ front := by
  obtain ⟨tail, htail⟩ := h
  rcases List.append_eq_append_iff.mp htail with ⟨more, rfl, -⟩ | ⟨more, rfl, rfl⟩
  · exact .inl (List.prefix_append _ _)
  · cases more with
    | nil => exact .inl (by simp)
    | cons c more => exact .inr ⟨c, rfl, by simp⟩

/-- An operator that does not go on in the text that follows it. -/
theorem operator_before
    {op : Operator} (h : IsPiece (.operator op) piece rest) (hsign : SignFree rest') :
    piece = op.spelling.toList ∧ IsPiece (.operator op) piece rest' := by
  cases h with
  | operator hlongest hcomment =>
      refine ⟨rfl, .operator ⟨hlongest.1, List.prefix_append _ _, fun o _ ho => ?_⟩ ?_⟩
      · rcases prefix_append_cases ho with hwithin | ⟨c, hc, hmem⟩
        · simpa [String.length_toList] using hwithin.length_le
        · exact absurd hmem (hsign c hc o)
      · -- A comment would have started where the operator was cut from.
        have hstart : ∀ sign : Operator, ∀ second ∈ sign.spelling.toList,
            ['/', second] <+: op.spelling.toList ++ rest' →
            ['/', second] <+: op.spelling.toList := by
          intro sign second hsecond hprefix
          rcases prefix_append_cases hprefix with hwithin | ⟨c, hc, hmem⟩
          · exact hwithin
          · rcases List.mem_cons.mp hmem with rfl | hmem
            · exact absurd (by decide) (hsign _ hc .slash)
            · rw [List.mem_singleton.mp hmem] at hc
              exact absurd hsecond (hsign _ hc sign)
        rintro (hline | hblock)
        · exact hcomment (.inl ((hstart .slash '/' (by decide) hline).trans
            (List.prefix_append _ _)))
        · exact hcomment (.inr ((hstart .star '*' (by decide) hblock).trans
            (List.prefix_append _ _)))
  | dot _ =>
      refine ⟨rfl, .dot fun hprefix => ?_⟩
      obtain ⟨tail, rfl⟩ := hprefix
      exact hsign '.' rfl .dot (by decide)
  | suffixed _ hsuffix _ => simp at hsuffix

/-- What is neither blank nor a comment stays on its line. -/
theorem newline_not_mem
    (h : IsPiece kind piece rest) (hkind : kind.isTrivia = false) : '\n' ∉ piece := by
  have hdigits : ∀ {digits : List Char}, IsDigits digits → '\n' ∉ digits := by
    rintro digits ⟨-, hall⟩ hmem
    exact absurd (hall _ hmem) (by decide)
  have hname : ∀ {name : List Char}, (∀ c ∈ name, isNameChar c = true) → '\n' ∉ name := by
    intro name hall hmem
    exact absurd (hall _ hmem) (by decide)
  cases h with
  | string hbody =>
      have hnot := hbody.newline_not_mem
      simp [hnot]
  | number h _ _ => exact hdigits h
  | real hwhole hfraction _ => simp [hdigits hwhole, hdigits hfraction]
  | suffixed h hsuffix _ =>
      have hne : ∀ suffix kind, (suffix, kind) ∈
          [('u', TokenKind.unsigned), ('b', .bit), ('o', .octet)] → suffix ≠ '\n' := by
        rintro suffix kind hmem rfl
        simp at hmem
      simp [hdigits h, (hne _ _ hsuffix).symm]
  | identifier hfirst hmore _ =>
      rw [List.mem_cons, not_or]
      refine ⟨?_, hname hmore⟩
      rintro rfl
      exact absurd hfirst (by decide)
  | @directive d _ _ => simp [hname d.isNameChar_of_mem_spelling]
  | @specialObject o _ _ => simp [hname o.isNameChar_of_mem_spelling]
  | @operator op _ _ _ => exact fun hmem => (op.of_mem_spelling _ hmem).2.2.2.2 rfl
  | @mark p _ _ => cases p <;> decide
  | ellipsis => decide
  | dot _ => decide
  | lineComment _ _ => cases hkind
  | blockComment _ => cases hkind
  | newline _ _ _ => cases hkind
  | whitespace _ _ _ => cases hkind

end IsPiece

/-- The token is neither blank nor a comment, and its literal stays on one line. -/
structure Token.IsInline (t : Token) : Prop where
  isTrivia_eq : t.kind.isTrivia = false
  newline_not_mem : '\n' ∉ t.literal.toList

theorem isInline_of_lex
    {source : String} {tokens : Array Token} (h : lex source = .ok tokens) {t : Token}
    (ht : t ∈ tokens) : t.IsInline := by
  obtain ⟨hkind, ⟨rest, hpiece⟩ | heof⟩ := of_mem_lex h ht
  · exact ⟨hkind, hpiece.newline_not_mem hkind⟩
  · have hempty : t.literal.toList = [] := congrArg Piece.text heof
    exact ⟨hkind, by simp [hempty]⟩

end ExprFront
