import ExprFront.Proofs.Token.Joined

/-!
# String literals there and back

Every text can be written between quotes, and the literal is one token that
stands for the text. The other way round, the body of every literal that the
lexer accepts is made of plain characters and known escapes, so nothing in it is
kept as it stands for want of a meaning. `decode?` is the decoder that has no
answer in these cases; on the bodies of literals it agrees with `decode`.
-/

namespace ExprFront

namespace Text.Quoted

/-- How a character is written between quotes. -/
def escape (c : Char) : List Char :=
  match c with
  | '\\' => ['\\', '\\']
  | '\'' => ['\\', '\'']
  | '\n' => ['\\', 'n']
  | '\t' => ['\\', 't']
  | '\r' => ['\\', 'r']
  | '\x00' => ['\\', '0']
  | c => [c]

/-- The literal that stands for a text. -/
def write (text : String) : String :=
  String.ofList ('\'' :: (text.toList.flatMap escape ++ ['\'']))

/-- The text that the body of a literal stands for. There is none if an escape means nothing or a
backslash stands at the end. -/
def decode? : List Char → Option (List Char)
  | [] => some []
  | '\\' :: e :: rest => (escaped? e).bind fun c => (decode? rest).map (c :: ·)
  | c :: rest => if c = '\\' then none else (decode? rest).map (c :: ·)

/-! ## Bodies of literals -/

/-- A character is written as an escape that stands for it, or as it is. -/
theorem escape_cases
    (c : Char) :
    (∃ e ∈ ['n', 't', 'r', '0', '\\', '\''], escape c = ['\\', e] ∧ escaped? e = some c) ∨
      (escape c = [c] ∧ c ∉ ['\'', '\\', '\n', '\r']) := by
  unfold escape
  split
  · exact .inl ⟨'\\', by decide, rfl, rfl⟩
  · exact .inl ⟨'\'', by decide, rfl, rfl⟩
  · exact .inl ⟨'n', by decide, rfl, rfl⟩
  · exact .inl ⟨'t', by decide, rfl, rfl⟩
  · exact .inl ⟨'r', by decide, rfl, rfl⟩
  · exact .inl ⟨'0', by decide, rfl, rfl⟩
  · rename_i hslash hquote hfeed _ hreturn _
    refine .inr ⟨rfl, ?_⟩
    simp only [List.mem_cons, List.not_mem_nil, or_false, not_or]
    exact ⟨hquote, hslash, hfeed, hreturn⟩

/-- A written text can stand between quotes. -/
theorem stringBody_flatMap_escape
    (text : List Char) : StringBody (text.flatMap escape) := by
  induction text with
  | nil => exact .nil
  | cons c text ih =>
      rw [List.flatMap_cons]
      rcases escape_cases c with ⟨e, he, hescape, -⟩ | ⟨hescape, hc⟩
      · rw [hescape]
        exact .escape he ih
      · rw [hescape]
        exact .plain hc ih

theorem decode?_plain
    {c : Char} (hc : c ≠ '\\') (rest : List Char) :
    decode? (c :: rest) = (decode? rest).map (c :: ·) := by
  rw [decode?.eq_3 _ _ fun _ _ h => absurd h hc, if_neg hc]

/-- Decoding takes back what writing does. -/
theorem decode?_flatMap_escape
    (text : List Char) : decode? (text.flatMap escape) = some text := by
  induction text with
  | nil => rfl
  | cons c text ih =>
      rw [List.flatMap_cons]
      rcases escape_cases c with ⟨e, -, hescape, hmeaning⟩ | ⟨hescape, hc⟩
      · rw [hescape, List.cons_append, List.singleton_append, decode?, hmeaning, ih]
        rfl
      · have hslash : c ≠ '\\' := by
          rintro rfl
          exact hc (by decide)
        rw [hescape, List.singleton_append, decode?_plain hslash, ih]
        rfl

/-- What can be decoded is decoded to the same text. -/
theorem decode_eq_of_decode?
    {inner text : List Char} (h : decode? inner = some text) : decode inner = text := by
  fun_induction decode? inner generalizing text with
  | case1 =>
      cases h
      rfl
  | case2 e rest ih =>
      obtain ⟨c, hmeaning, hrest⟩ := Option.bind_eq_some_iff.mp h
      obtain ⟨later, hlater, rfl⟩ := Option.map_eq_some_iff.mp hrest
      rw [decode, hmeaning, ih hlater]
  | case3 => cases h
  | case4 c rest _ hslash ih =>
      obtain ⟨later, hlater, rfl⟩ := Option.map_eq_some_iff.mp h
      rw [decode.eq_3 _ _ fun _ _ h => absurd h hslash, ih hlater]

/-- What can stand between quotes can be decoded. -/
theorem exists_decode?_of_stringBody
    {inner : List Char} (h : StringBody inner) : ∃ text, decode? inner = some text := by
  induction h with
  | nil => exact ⟨[], rfl⟩
  | @plain c inner hc _ ih =>
      obtain ⟨text, htext⟩ := ih
      have hslash : c ≠ '\\' := by
        rintro rfl
        exact hc (by decide)
      exact ⟨c :: text, by rw [decode?_plain hslash, htext]; rfl⟩
  | @escape e inner he _ ih =>
      obtain ⟨text, htext⟩ := ih
      obtain ⟨c, hmeaning⟩ := Option.isSome_iff_exists.mp (isSome_escaped?_iff.mpr he)
      exact ⟨c :: text, by rw [decode?, hmeaning, htext]; rfl⟩

/-! ## Literals -/

/-- The body of a literal is what stands between its quotes. -/
theorem body_quoted
    (inner : List Char) : body ('\'' :: (inner ++ ['\''])) = inner := by
  simp [body, dropClosingQuote?]

theorem read_of_decode?
    {literal : String} {inner text : List Char}
    (hliteral : literal.toList = '\'' :: (inner ++ ['\''])) (h : decode? inner = some text) :
    read literal = String.ofList text := by
  rw [read, hliteral, body_quoted, decode_eq_of_decode? h]

/-- The literal of a text stands for the text. -/
theorem read_write
    (text : String) : read (write text) = text := by
  have hliteral : (write text).toList = '\'' :: (text.toList.flatMap escape ++ ['\'']) := by
    rw [write, String.toList_ofList]
  rw [read_of_decode? hliteral (decode?_flatMap_escape text.toList), String.ofList_toList]

end Text.Quoted

open Text.Quoted

/-- The tokens of a text that is one string literal. -/
def loneString (literal : String) : Array Token :=
  #[Token.at .origin .string 1 literal.toList,
    Token.at (Cursor.origin.advanceAll literal.toList) .eof 1 []]

/-- The literal of a text is one token. -/
theorem lex_write
    (text : String) : lex (write text) = .ok (loneString (write text)) := by
  have hpiece : IsPiece .string (write text).toList [] := by
    rw [write, String.toList_ofList]
    exact .string (stringBody_flatMap_escape text.toList)
  have hcut := Cut.cons hpiece .nil
  rw [List.append_nil] at hcut
  refine lex_eq_ok_iff.mpr ⟨_, hcut, ?_⟩
  simp [withoutTrivia, tokensFrom, loneString, Token.at, TokenKind.isTrivia, TokenKind.units]

/-- The literal of a string token is a body between quotes. -/
theorem exists_stringBody_of_mem_tokenize
    {source : String} {tokens : Array Token} (h : tokenize source = .ok tokens) {t : Token}
    (ht : t ∈ tokens) (hkind : t.kind = .string) :
    ∃ inner, t.literal.toList = '\'' :: (inner ++ ['\'']) ∧ StringBody inner := by
  obtain ⟨pieces, hcut, rfl⟩ := tokenize_eq_ok_iff.mp h
  have hpiece := List.mem_map_of_mem (f := Token.piece) (List.mem_toArray.mp ht)
  rw [map_piece_tokensFrom, List.mem_append, List.mem_singleton] at hpiece
  rcases hpiece with hpiece | heof
  · obtain ⟨rest, hlexed⟩ := hcut.exists_isPiece hpiece
    simp only [Token.piece, hkind] at hlexed
    generalize t.literal.toList = literal at hlexed ⊢
    cases hlexed with
    | @string inner _ hbody => exact ⟨inner, rfl, hbody⟩
    | suffixed _ hsuffix _ => simp at hsuffix
  · have hend : t.kind = .eof := congrArg Piece.kind heof
    rw [hkind] at hend
    cases hend

/-- Every text has a literal, which is one token and stands for it. Every string token of a text
has a literal in which each backslash is part of an escape, and the literal of what it stands for
is one token that stands for the same. -/
theorem lex_write_and_read_of_tokenize :
    (∀ text : String, lex (write text) = .ok (loneString (write text)) ∧
      read (write text) = text) ∧
    ∀ (source : String) (tokens : Array Token), tokenize source = .ok tokens →
      ∀ t ∈ tokens, t.kind = .string →
        (∃ inner, t.literal.toList = '\'' :: (inner ++ ['\'']) ∧
          decode? inner = some (read t.literal).toList) ∧
        lex (write (read t.literal)) = .ok (loneString (write (read t.literal))) ∧
        read (write (read t.literal)) = read t.literal := by
  refine ⟨fun text => ⟨lex_write text, read_write text⟩, fun source tokens h t ht hkind => ?_⟩
  obtain ⟨inner, hliteral, hbody⟩ := exists_stringBody_of_mem_tokenize h ht hkind
  obtain ⟨text, hdecode⟩ := exists_decode?_of_stringBody hbody
  refine ⟨⟨inner, hliteral, ?_⟩, lex_write _, read_write _⟩
  rw [read_of_decode? hliteral hdecode, String.toList_ofList, hdecode]

/-- In `'é\'\\'` an escaped quote stands before an escaped backslash, and the last quote ends the
literal. -/
theorem lex_write_and_read_of_tokenize_sample :
    lex (write "é'\\") = .ok (loneString "'é\\'\\\\'") ∧
      ∃ t ∈ loneString "'é\\'\\\\'", tokenize "'é\\'\\\\'" = .ok (loneString "'é\\'\\\\'") ∧
        t.kind = .string ∧ (∃ inner, t.literal.toList = '\'' :: (inner ++ ['\'']) ∧
          decode? inner = some (read t.literal).toList) ∧
        read (write (read t.literal)) = read t.literal := by
  have hwrite : write "é'\\" = "'é\\'\\\\'" := by decide +kernel
  have htokenize : tokenize "'é\\'\\\\'" = .ok (loneString "'é\\'\\\\'") := by decide +kernel
  have hmem : Token.at .origin .string 1 "'é\\'\\\\'".toList ∈ loneString "'é\\'\\\\'" := by
    simp [loneString]
  obtain ⟨htexts, hliterals⟩ := lex_write_and_read_of_tokenize
  obtain ⟨hinner, -, hread⟩ := hliterals _ _ htokenize _ hmem rfl
  refine ⟨?_, _, hmem, htokenize, rfl, hinner, hread⟩
  rw [← hwrite]
  exact (htexts "é'\\").1

end ExprFront
