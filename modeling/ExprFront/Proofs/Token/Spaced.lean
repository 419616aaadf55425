import ExprFront.Proofs.Token.Joined
import ExprFront.Proofs.Token.Lossless

/-!
# Literals with blanks between them

A token ends before a blank, whatever stood behind it in its own text, and no
token starts with one. So the literals of a text can be set apart by any blanks:
each of them is read back as the token that it was, and the blanks as trivia.
-/

namespace ExprFront

open Lexeme

/-! ## Before a blank -/

/-- The text is at its end or goes on with a blank. -/
def StartsBlank (rest : List Char) : Prop := ∀ c ∈ rest.head?, Text.isBlank c = true

/-- The printable characters of the basic set are no blanks. -/
theorem isBlank_eq_false
    {c : Char} (hlow : 33 ≤ c.toNat) (hhigh : c.toNat ≤ 132) : Text.isBlank c = false := by
  have hspace := isSpace_eq_false hlow hhigh
  rw [Text.isSpace, isLineBreak_eq_false hlow] at hspace
  simpa using hspace

theorem isBlank_of_isNameChar
    {c : Char} (hc : isNameChar c = true) : Text.isBlank c = false := by
  have hcases : c.isDigit = true ∨ isNameStart c = true := by
    simp only [isNameChar, isNameStart, Char.isAlphanum, Bool.or_eq_true] at hc ⊢
    tauto
  rcases hcases with hdigit | hname
  · have := toNat_of_isDigit hdigit
    exact isBlank_eq_false (by omega) (by omega)
  · have := toNat_of_isNameStart hname
    exact isBlank_eq_false (by omega) (by omega)

theorem Operator.isBlank_of_mem_spelling
    (op : Operator) : ∀ c ∈ op.spelling.toList, Text.isBlank c = false := by
  have htest : op.spelling.toList.all (fun c => !Text.isBlank c) = true := by
    cases op <;> decide
  intro c hc
  simpa using List.all_eq_true.mp htest c hc

namespace StartsBlank

variable {rest : List Char}

theorem endsBefore
    (h : StartsBlank rest) : EndsBefore isNameChar rest := by
  intro c hc
  by_contra hname
  have hblank := h c hc
  rw [isBlank_of_isNameChar (by simpa using hname)] at hblank
  cases hblank

theorem pointFree
    (h : StartsBlank rest) : PointFree rest := by
  rintro d more rfl
  exact absurd (h '.' rfl) (by decide)

theorem signFree
    (h : StartsBlank rest) : SignFree rest := by
  intro c hc op hmem
  have hblank := h c hc
  rw [op.isBlank_of_mem_spelling c hmem] at hblank
  cases hblank

end StartsBlank

namespace IsPiece

variable {kind : TokenKind} {piece rest rest' : List Char}

/-- What is neither blank nor a comment ends before a blank. -/
theorem before_blank
    (h : IsPiece kind piece rest) (hkind : kind.isTrivia = false) (hblank : StartsBlank rest') :
    IsPiece kind piece rest' := by
  by_cases hoperand : kind.isOperand = true
  · exact h.operand_before hoperand hblank.endsBefore fun _ => hblank.pointFree
  · cases kind with
    | operator op => exact (h.operator_before hblank.signFree).2
    | directive d =>
        cases h with
        | directive _ => exact .directive hblank.endsBefore
        | suffixed _ hsuffix _ => simp at hsuffix
    | punctuation p =>
        cases h with
        | mark hp => exact .mark hp
        | ellipsis => exact .ellipsis
        | suffixed _ hsuffix _ => simp at hsuffix
    | eof => exact absurd rfl h.kind_ne_eof
    | whitespace => cases hkind
    | newline => cases hkind
    | lineComment => cases hkind
    | blockComment => cases hkind
    | _ => exact absurd rfl hoperand

/-- What is neither blank nor a comment starts with no blank. -/
theorem not_blank_first
    (h : IsPiece kind piece rest) (hkind : kind.isTrivia = false) (rest' : List Char) :
    EndsBefore Text.isBlank (piece ++ rest') := by
  obtain ⟨first, more, rfl, hrecognise⟩ := h.recognisedAs
  intro c hc
  obtain rfl : first = c := by simpa using hc
  by_contra hblank
  rw [Bool.not_eq_false] at hblank
  -- Recognition would have taken a run of blanks here.
  by_cases hbreak : Text.isLineBreak first = true
  · rw [recognise_of_isLineBreak hbreak, Except.ok.injEq] at hrecognise
    cases congrArg Lexeme.kind hrecognise
    cases hkind
  · have hspace : Text.isSpace first = true := by simp [Text.isSpace, hblank, hbreak]
    rw [recognise_of_isSpace hspace, Except.ok.injEq] at hrecognise
    cases congrArg Lexeme.kind hrecognise
    cases hkind

end IsPiece

/-! ## Gaps -/

/-- A run of characters that pass a test, up to the first that does not. -/
theorem exists_run
    {p : Char → Bool} {first : Char} {rest : List Char} (hfirst : p first = true)
    (hrest : EndsBefore p rest) (more : List Char) :
    ∃ run left, first :: more = run ++ left ∧ run ≠ [] ∧ (∀ c ∈ run, p c = true) ∧
      EndsBefore p (left ++ rest) := by
  refine ⟨(first :: more).takeWhile p, (first :: more).dropWhile p,
    (List.takeWhile_append_dropWhile).symm, ?_, fun c hc => List.mem_takeWhile_imp hc, ?_⟩
  · simp [hfirst]
  · rw [← drop_countWhile]
    have hends := endsBefore_drop_countWhile p (first :: more)
    cases hleft : (first :: more).drop (countWhile p (first :: more)) with
    | nil => simpa using hrest
    | cons c left =>
        rw [hleft] at hends
        exact hends

/-- Blanks are cut off in runs of one class. -/
theorem exists_blank_piece
    {first : Char} {more rest : List Char} (hgap : ∀ c ∈ first :: more, Text.isBlank c = true)
    (hrest : EndsBefore Text.isBlank rest) :
    ∃ kind run left, first :: more = run ++ left ∧ run ≠ [] ∧ kind.isTrivia = true ∧
      IsPiece kind run (left ++ rest) := by
  by_cases hbreak : Text.isLineBreak first = true
  · have hends : EndsBefore Text.isLineBreak rest := by
      intro c hc
      by_contra hline
      rcases isLineBreak_eq_true_iff.mp (by simpa using hline) with rfl | rfl <;>
        exact absurd (hrest _ hc) (by decide)
    obtain ⟨run, left, hsplit, hne, hrun, hleft⟩ := exists_run hbreak hends more
    exact ⟨.newline, run, left, hsplit, hne, rfl,
      .newline hne (fun c hc => isLineBreak_eq_true_iff.mp (hrun c hc)) hleft⟩
  · have hspace : Text.isSpace first = true := by
      simp [Text.isSpace, hgap first List.mem_cons_self, hbreak]
    have hends : EndsBefore Text.isSpace rest := by
      intro c hc
      simp [Text.isSpace, hrest c hc]
    obtain ⟨run, left, hsplit, hne, hrun, hleft⟩ := exists_run hspace hends more
    exact ⟨.whitespace, run, left, hsplit, hne, rfl,
      .whitespace hne (fun c hc => isSpace_eq_true_iff.mp (hrun c hc)) hleft⟩

/-- Blanks in front of a text leave its tokens as they are. -/
theorem Cut.exists_cut_blanks
    {gap rest : List Char} {pieces : List Piece} (h : Cut rest pieces)
    (hgap : ∀ c ∈ gap, Text.isBlank c = true) (hrest : EndsBefore Text.isBlank rest) :
    ∃ all, Cut (gap ++ rest) all ∧ all.filter Piece.isKept = pieces.filter Piece.isKept := by
  induction hlength : gap.length using Nat.strongRecOn generalizing gap with
  | ind n ih =>
      cases gap with
      | nil => exact ⟨pieces, h, rfl⟩
      | cons first more =>
          obtain ⟨kind, run, left, hsplit, hne, hkind, hpiece⟩ := exists_blank_piece hgap hrest
          rw [hsplit] at hgap hlength ⊢
          have hshorter : left.length < n := by
            rw [← hlength, List.length_append]
            exact Nat.lt_add_of_pos_left (List.length_pos_iff.mpr hne)
          obtain ⟨all, hall, hkept⟩ := ih left.length hshorter
            (fun c hc => hgap c (List.mem_append_right run hc)) rfl
          refine ⟨⟨kind, run⟩ :: all, ?_, ?_⟩
          · rw [List.append_assoc]
            exact .cons hpiece hall
          · rw [List.filter_cons_of_neg (by simp [Piece.isKept, hkind]), hkept]

/-! ## Literals set apart -/

/-- The texts one after the other, each but the last with its gap behind it. -/
def spacedOut : (texts gaps : List String) → String
  | text :: texts, gap :: gaps => text ++ gap ++ spacedOut texts gaps
  | texts, _ => String.join texts

/-- The gaps are blank, and none but the last is empty. -/
structure SetApart (gaps : List String) : Prop where
  blank : ∀ gap ∈ gaps, ∀ c ∈ gap.toList, Text.isBlank c = true
  nonempty : ∀ gap ∈ gaps.dropLast, gap ≠ ""

/-- Pieces that are set apart by gaps are those of the whole text. -/
theorem exists_cut_spacedOut
    {pieces : List Piece} {gaps : List String}
    (hpieces : ∀ piece ∈ pieces, piece.isKept = true ∧
      ∃ rest, IsPiece piece.kind piece.text rest)
    (hlength : gaps.length = pieces.length) (hgaps : SetApart gaps) :
    let text := (spacedOut (pieces.map (String.ofList ·.text) ++ [""]) gaps).toList
    EndsBefore Text.isBlank text ∧ ∃ all, Cut text all ∧ all.filter Piece.isKept = pieces := by
  induction pieces generalizing gaps with
  | nil =>
      obtain rfl := List.length_eq_zero_iff.mp hlength
      exact ⟨by simp [spacedOut, EndsBefore], [], .nil, rfl⟩
  | cons piece pieces ih =>
      obtain ⟨gap, gaps, rfl⟩ := List.exists_cons_of_length_eq_add_one hlength
      obtain ⟨hblank, hnonempty⟩ := hgaps
      rw [List.forall_mem_cons] at hpieces hblank
      obtain ⟨⟨hkept, rest, hpiece⟩, hpieces⟩ := hpieces
      have hkind : piece.kind.isTrivia = false := by simpa [Piece.isKept] using hkept
      have hlater : SetApart gaps := by
        refine ⟨hblank.2, fun other hother => hnonempty other ?_⟩
        cases gaps with
        | nil => cases hother
        | cons next gaps => exact List.mem_cons_of_mem gap hother
      obtain ⟨hends, others, hcut, hothers⟩ := ih hpieces (by simpa using hlength) hlater
      obtain ⟨all, hall, hfilter⟩ := hcut.exists_cut_blanks hblank.1 hends
      have hstarts : StartsBlank (gap.toList ++
          (spacedOut (pieces.map (String.ofList ·.text) ++ [""]) gaps).toList) := by
        intro c hc
        cases htext : gap.toList with
        | cons first more =>
            rw [htext] at hc
            obtain rfl : first = c := by simpa using hc
            exact hblank.1 first (by simp [htext])
        | nil =>
            -- Only the last gap may be empty, and nothing follows it.
            cases gaps with
            | nil =>
                obtain rfl : pieces = [] := by simpa using hlength.symm
                simp [htext, spacedOut] at hc
            | cons next gaps =>
                exact absurd (String.toList_eq_nil_iff.mp htext) (hnonempty gap List.mem_cons_self)
      simp only [List.map_cons, List.cons_append, spacedOut, String.toList_append,
        String.toList_ofList, List.append_assoc]
      refine ⟨hpiece.not_blank_first hkind _, piece :: all, ?_, ?_⟩
      · exact .cons (hpiece.before_blank hkind hstarts) hall
      · rw [List.filter_cons_of_pos hkept, hfilter, hothers]

/-- A token of a text combines as many lexical units as its kind says. -/
theorem size_of_mem_tokensFrom
    {place : Cursor} {pieces : List Piece} {t : Token} (ht : t ∈ tokensFrom place pieces) :
    t.size = t.kind.units := by
  induction pieces generalizing place with
  | nil =>
      rw [tokensFrom, List.mem_singleton] at ht
      subst ht
      rfl
  | cons piece pieces ih =>
      rw [tokensFrom, List.mem_cons] at ht
      rcases ht with rfl | ht
      · rfl
      · exact ih ht

theorem size_of_lex
    {source : String} {tokens : Array Token} (h : lex source = .ok tokens) {t : Token}
    (ht : t ∈ tokens) : t.size = t.kind.units := by
  obtain ⟨pieces, -, rfl⟩ := lex_eq_ok_iff.mp h
  exact size_of_mem_tokensFrom (List.mem_toArray.mp (Array.mem_filter.mp ht).1)

/-- Kind, literal and size of the tokens follow from their pieces. -/
theorem map_sizes_of_lex
    {source : String} {tokens : Array Token} (h : lex source = .ok tokens) :
    tokens.toList.map (fun t => (t.kind, t.literal, t.size)) =
      (tokens.toList.map Token.piece).map fun piece =>
        (piece.kind, String.ofList piece.text, piece.kind.units) := by
  rw [List.map_map]
  refine List.map_congr_left fun t ht => ?_
  simp [Token.piece, size_of_lex h (Array.mem_toList_iff.mp ht)]

/-- The literals of a text with any blanks between them have the tokens of the text: the same
kinds, literals and sizes, and the end mark at the end. -/
theorem lex_spacedOut
    (source : String) (tokens : Array Token) (gaps : List String)
    (hlex : lex source = .ok tokens) (hlength : gaps.length + 1 = tokens.size)
    (hgaps : SetApart gaps) :
    ∃ again, lex (spacedOut (tokens.toList.map (·.literal)) gaps) = .ok again ∧
      again.toList.map (fun t => (t.kind, t.literal, t.size)) =
        tokens.toList.map (fun t => (t.kind, t.literal, t.size)) ∧
      again.back?.map (·.kind) = some .eof := by
  obtain ⟨pieces, hcut, htokens⟩ := lex_eq_ok_iff.mp hlex
  have hpieces := map_piece_withoutTrivia .origin pieces
  rw [← htokens] at hpieces
  have hliterals : tokens.toList.map (·.literal) =
      (pieces.filter Piece.isKept).map (String.ofList ·.text) ++ [""] := by
    have htexts := congrArg (List.map fun piece => String.ofList piece.text) hpieces
    simpa [Token.piece, Function.comp_def] using htexts
  have hcount : tokens.size = (pieces.filter Piece.isKept).length + 1 := by
    simpa using congrArg List.length hpieces
  have hkinds : ∀ piece ∈ pieces.filter Piece.isKept, piece.isKept = true ∧
      ∃ rest, IsPiece piece.kind piece.text rest :=
    fun piece hmem => ⟨List.of_mem_filter hmem, hcut.exists_isPiece (List.mem_of_mem_filter hmem)⟩
  obtain ⟨-, all, hall, hkept⟩ := exists_cut_spacedOut hkinds (by omega) hgaps
  obtain ⟨again, hagain, hmap⟩ := hall.exists_lex
  rw [hkept, ← hpieces] at hmap
  refine ⟨again, by rw [hliterals, hagain], ?_, ?_⟩
  · rw [map_sizes_of_lex hagain, map_sizes_of_lex hlex, hmap]
  · have hlast := congrArg (fun list => list.getLast?.map Piece.kind) (hmap.trans hpieces)
    simpa [Token.piece, Function.comp_def] using hlast

/-- The number no longer stands before the points, which the lexer looked at. -/
theorem lex_spacedOut_sample :
    ∃ again, lex "1\n...\t b" = .ok again ∧
      again.toList.map (fun t => (t.kind, t.literal, t.size)) =
        [(.number, "1", 1), (.punctuation .ellipsis, "...", 1), (.identifier, "b", 1),
          (.eof, "", 1)] ∧
      again.back?.map (·.kind) = some .eof := by
  have hname : IsPiece .identifier ['b'] [] := .identifier (by decide) (by simp) (by decide)
  have hnumber : IsPiece .number ['1'] ['.', '.', '.', 'b'] :=
    .number ⟨by simp, List.forall_mem_singleton.mpr (by decide)⟩ (by decide) (by simp)
  have hcut : Cut "1...b".toList _ := .cons hnumber (.cons .ellipsis (.cons hname .nil))
  have htest : ["\n", "\t ", ""].all (fun gap => gap.toList.all Text.isBlank) = true := by decide
  have hblank : ∀ gap ∈ ["\n", "\t ", ""], ∀ c ∈ gap.toList, Text.isBlank c = true :=
    fun gap hgap => List.all_eq_true.mp (List.all_eq_true.mp htest gap hgap)
  exact lex_spacedOut "1...b" _ ["\n", "\t ", ""] (lex_eq_ok_iff.mpr ⟨_, hcut, rfl⟩) (by decide)
    ⟨hblank, by decide⟩

end ExprFront
