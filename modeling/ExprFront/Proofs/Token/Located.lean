import ExprFront.Proofs.Token.Boundaries
import ExprFront.Proofs.Token.Sliced
import Mathlib.Logic.Relation

/-!
# Where lexical errors are

A scan cuts one lexeme after the other until no class recognises what is left. The
error is about characters that its cause names, and these stand at the start of the
text that is left; only an invalid escape stands further on, inside the string that
was begun there. The lexemes before it do not depend on what follows them, so that
the text before the rejected token has exactly the tokens that were cut.
-/

namespace ExprFront

open Lexeme

/-! ## What a cause is about -/

namespace LexCause

/-- The characters that a cause is about. -/
def blamed : LexCause → List Char
  | unknownDirective name => '#' :: name.toList
  | unknownSpecialObject name => '@' :: name.toList
  | unterminatedString => ['\'']
  | invalidEscape c => ['\\', c]
  | unterminatedComment => ['/', '*']
  | invalidNumber literal => literal.toList
  | unexpectedChar c => [c]

/-- What has been read of the rejected token before the characters that the cause is about: nothing,
or for an escape the string up to it. -/
def Follows : LexCause → List Char → Prop
  | invalidEscape _, skipped => ∃ body, skipped = '\'' :: body ∧ StringBody body
  | _, skipped => skipped = []

end LexCause

/-- A fault at the start of a text points at the characters that its cause is about. -/
structure LexFault.Blames (fault : LexFault) (text skipped later : List Char) : Prop where
  text_eq : text = skipped ++ (fault.cause.blamed ++ later)
  skipped_eq : fault.skipped = skipped.length
  width_eq : fault.width = fault.cause.blamed.length
  follows : fault.cause.Follows skipped
  blamed_ne : fault.cause.blamed ≠ []

namespace Lexeme

variable {first : Char} {rest body text : List Char} {fault : LexFault}

/-! ## Faults of the classes -/

/-- The fault at the start of a text is about characters that stand there. -/
theorem blames_blockComment
    (h : blockComment body = .error fault) : ∃ skipped later,
      fault.Blames ('/' :: '*' :: body) skipped later := by
  unfold blockComment at h
  split at h
  · cases h
  · cases h
    exact ⟨[], body, rfl, rfl, rfl, rfl, List.cons_ne_nil _ _⟩

/-- A string literal is rejected because of the end of its line or of an escape, which follows a
body that is sound. -/
theorem exists_of_stringLength_error
    {taken : Nat} (h : stringLength taken text = .error fault) :
    fault = unterminatedString ∨ ∃ body c later, text = body ++ '\\' :: c :: later ∧
      StringBody body ∧ fault = ⟨.invalidEscape c, taken + body.length, 2⟩ := by
  fun_induction stringLength taken text with
  | case1 =>
      cases h
      exact .inl rfl
  | case2 =>
      cases h
      exact .inl rfl
  | case3 taken e rest _ hescape ih =>
      obtain rfl | ⟨body, c, later, rfl, hbody, rfl⟩ := ih h
      · exact .inl rfl
      · refine .inr ⟨'\\' :: e :: body, c, later, rfl,
          .escape (isSome_escaped?_iff.mp hescape) hbody, ?_⟩
        rw [List.length_cons, List.length_cons, Nat.add_assoc, Nat.add_comm 2]
  | case4 taken e rest =>
      cases h
      exact .inr ⟨[], e, rest, rfl, .nil, rfl⟩
  | case5 => cases h
  | case6 =>
      cases h
      exact .inl rfl
  | case7 taken c rest hslash hquote hbreak ih =>
      obtain rfl | ⟨body, e, later, rfl, hbody, rfl⟩ := ih h
      · exact .inl rfl
      · have hc := not_mem_of_not_escape (by simp) hslash hquote hbreak
        refine .inr ⟨c :: body, e, later, rfl, .plain hc hbody, ?_⟩
        rw [List.length_cons, Nat.add_assoc, Nat.add_comm 1]

theorem blames_string
    (h : string rest = .error fault) : ∃ skipped later,
      fault.Blames ('\'' :: rest) skipped later := by
  unfold string at h
  split at h
  · cases h
  · rename_i hlength
    cases h
    obtain rfl | ⟨body, c, later, rfl, hbody, rfl⟩ := exists_of_stringLength_error hlength
    · exact ⟨[], rest, rfl, rfl, rfl, rfl, List.cons_ne_nil _ _⟩
    · exact ⟨'\'' :: body, later, rfl, by rw [List.length_cons, Nat.add_comm], rfl,
        ⟨body, rfl, hbody⟩, List.cons_ne_nil _ _⟩

/-- A rejected number is blamed with all that belongs to the name that it runs into. -/
theorem blames_number
    (h : number first rest = .error fault) : ∃ skipped later,
      fault.Blames (first :: rest) skipped later := by
  rw [number] at h
  split at h
  · cases h
  · rename_i hsurplus
    cases h
    set tail := countWhile Char.isDigit rest +
      (numberEnding (rest.drop (countWhile Char.isDigit rest))).tail
    have hle : tail + countWhile isNameChar (rest.drop tail) ≤ rest.length := by
      have hcount := countWhile_le_length isNameChar (rest.drop tail)
      rw [List.length_drop] at hcount
      omega
    refine ⟨[], rest.drop (tail + countWhile isNameChar (rest.drop tail)), ?_, rfl, ?_, rfl, ?_⟩
    · simp [LexCause.blamed]
    · simp only [LexCause.blamed, String.toList_ofList, List.length_cons]
      rw [List.length_take_of_le hle]
      omega
    · simp [LexCause.blamed]

theorem blames_name
    {mark : Char} {cause : String → LexCause}
    (hblamed : ∀ name, (cause name).blamed = mark :: name.toList)
    (hfollows : ∀ name, (cause name).Follows []) :
    LexFault.Blames ⟨cause (nameText rest), 0, 1 + countWhile isNameChar rest⟩ (mark :: rest) []
      (rest.drop (countWhile isNameChar rest)) := by
  refine ⟨?_, rfl, ?_, hfollows _, by simp [hblamed]⟩
  · rw [hblamed, nameText, String.toList_ofList, ← take_countWhile, List.nil_append,
      List.cons_append, List.take_append_drop]
  · rw [hblamed, nameText, String.toList_ofList, List.length_cons, Nat.add_comm]
    rfl

theorem blames_directive
    (h : directive rest = .error fault) : ∃ skipped later,
      fault.Blames ('#' :: rest) skipped later := by
  unfold directive at h
  split at h
  · cases h
  · cases h
    exact ⟨[], _, blames_name (fun _ => rfl) fun _ => rfl⟩

theorem blames_specialObject
    (h : specialObject rest = .error fault) : ∃ skipped later,
      fault.Blames ('@' :: rest) skipped later := by
  unfold specialObject at h
  split at h
  · cases h
  · cases h
    exact ⟨[], _, blames_name (fun _ => rfl) fun _ => rfl⟩

theorem blames_sign
    (h : sign first rest = .error fault) : ∃ skipped later,
      fault.Blames (first :: rest) skipped later := by
  unfold sign at h
  split at h
  · cases h
  · split at h
    · cases h
    · split at h
      · cases h
      · cases h
        exact ⟨[], rest, rfl, rfl, rfl, rfl, List.cons_ne_nil _ _⟩

/-- What no class recognises is rejected for characters that stand at its start, or after the start
of a string. -/
theorem blames_recognise
    (h : recognise first rest = .error fault) : ∃ skipped later,
      fault.Blames (first :: rest) skipped later := by
  unfold recognise at h
  split at h
  · cases h
  split at h
  · rename_i hcomment
    obtain ⟨rfl, hhead⟩ := hcomment
    obtain ⟨body, rfl⟩ := List.head?_eq_some_iff.mp hhead
    exact blames_blockComment h
  split at h
  · rename_i hquote
    exact hquote ▸ blames_string h
  split at h
  · cases h
  split at h
  · cases h
  split at h
  · exact blames_number h
  split at h
  · cases h
  split at h
  · rename_i hhash
    exact hhash ▸ blames_directive h
  split at h
  · rename_i hat
    exact hat ▸ blames_specialObject h
  · exact blames_sign h

end Lexeme

/-! ## Steps of a scan -/

/-- Where a scan is: the text that is left, the place where it starts and the tokens so far. -/
structure ScanState where
  text : List Char
  place : Cursor
  tokens : Array Token

namespace ScanState

/-- The state before anything is cut. -/
def start (source : String) : ScanState := ⟨source.toList, .origin, #[]⟩

/-- One lexeme is cut off and becomes a token. -/
inductive Step : ScanState → ScanState → Prop
  | cut {first : Char} {rest : List Char} {place : Cursor} {tokens : Array Token}
      {lexeme : Lexeme} (h : recognise first rest = .ok lexeme) :
      Step ⟨first :: rest, place, tokens⟩
        ⟨rest.drop lexeme.tail, place.advanceAll (first :: rest.take lexeme.tail),
          tokens.push (.at place lexeme.kind lexeme.size (first :: rest.take lexeme.tail))⟩

/-- Any number of lexemes is cut off. -/
def Run : ScanState → ScanState → Prop := Relation.ReflTransGen Step

/-- A scan that fails runs to a text that no class recognises. -/
theorem exists_run_of_scan_error
    {text : List Char} {place : Cursor} {tokens : Array Token} {e : LexError}
    (h : scan text place tokens = .error e) :
    ∃ first rest fault place' tokens', Run ⟨text, place, tokens⟩ ⟨first :: rest, place', tokens'⟩ ∧
      recognise first rest = .error fault ∧ e = fault.locate place' (first :: rest) := by
  fun_induction scan text place tokens with
  | case1 => cases h
  | case2 place tokens first rest fault hfault =>
      cases h
      exact ⟨first, rest, fault, place, tokens, .refl, hfault, rfl⟩
  | case3 place tokens first rest lexeme hlexeme literal ih =>
      obtain ⟨last, more, fault, place', tokens', hrun, hfault⟩ := ih h
      exact ⟨last, more, fault, place', tokens', .head (.cut hlexeme) hrun, hfault⟩

/-- The pieces have been cut from the source, and they join before the text that is left. -/
structure HasCut (source : String) (s : ScanState) (pieces : List Piece) : Prop where
  source_eq : source.toList = joined pieces ++ s.text
  joins : Joins pieces s.text
  place_eq : s.place = .after (String.ofList (joined pieces))
  tokens_eq : ∀ more, tokensFrom .origin (pieces ++ more) =
    s.tokens.toList ++ tokensFrom s.place more

theorem hasCut_start
    (source : String) : (start source).HasCut source [] := by
  refine ⟨rfl, trivial, rfl, fun more => rfl⟩

/-- A step cuts one more piece. -/
theorem HasCut.step
    {source : String} {s s' : ScanState} {pieces : List Piece} (h : s.HasCut source pieces)
    (hstep : s.Step s') : ∃ piece, s'.HasCut source (pieces ++ [piece]) := by
  cases hstep with
  | @cut first rest place tokens lexeme hlexeme =>
      obtain ⟨hsize, hpiece⟩ := fits_of_recognise hlexeme
      obtain ⟨hsource, hjoins, hplace, htokens⟩ := h
      dsimp only at hsource hjoins hplace htokens
      have htext : first :: rest =
          joined [⟨lexeme.kind, first :: rest.take lexeme.tail⟩] ++ rest.drop lexeme.tail := by
        simp
      refine ⟨⟨lexeme.kind, first :: rest.take lexeme.tail⟩, ?_, ?_, ?_, fun more => ?_⟩
      · rw [hsource, htext, joined_append, List.append_assoc]
      · rw [htext] at hjoins
        exact joins_append_iff.mpr ⟨hjoins, hpiece, trivial⟩
      · rw [hplace, Cursor.advanceAll_after, joined_append, String.ofList_append, joined_cons,
          joined_nil, List.append_nil]
      · rw [List.append_assoc, List.singleton_append, htokens, tokensFrom, ← hsize,
          Array.toList_push, List.append_assoc, List.singleton_append]

/-- A run cuts one piece after the other. -/
theorem HasCut.run
    {source : String} {s s' : ScanState} {pieces : List Piece} (h : s.HasCut source pieces)
    (hrun : s.Run s') : ∃ more, s'.HasCut source (pieces ++ more) := by
  induction hrun with
  | refl => exact ⟨[], by rwa [List.append_nil]⟩
  | tail _ hstep ih =>
      obtain ⟨more, hmore⟩ := ih
      obtain ⟨piece, hpiece⟩ := hmore.step hstep
      exact ⟨more ++ [piece], by rwa [← List.append_assoc]⟩

/-- The text that has been cut off has the tokens so far and no others. -/
theorem HasCut.tokenize_eq
    {source : String} {s : ScanState} {pieces : List Piece} (h : s.HasCut source pieces) :
    tokenize (String.ofList (joined pieces)) = .ok (s.tokens.push (.at s.place .eof 1 [])) := by
  have hjoins : Joins pieces ([] ++ s.text) := h.joins
  have hcut : Cut (String.ofList (joined pieces)).toList pieces := by
    rw [String.toList_ofList]
    exact hjoins.truncated.cut
  have htokens := h.tokens_eq []
  rw [List.append_nil, tokensFrom] at htokens
  refine tokenize_eq_ok_iff.mpr ⟨pieces, hcut, ?_⟩
  rw [htokens, ← Array.toList_push, Array.toArray_toList]

end ScanState

/-! ## Errors in their text -/

/-- The error of a text lies between what has been cut off, with what has been read of the rejected
token, and what comes later. -/
structure LexError.Located (e : LexError) (source front skipped later : String)
    (tokens : Array Token) : Prop where
  source_eq : source = front ++ skipped ++ String.ofList e.cause.blamed ++ later
  follows : e.cause.Follows skipped.toList
  /-- The span is that of the characters that the cause is about. -/
  span_eq : e.span = ⟨(front ++ skipped).utf8ByteSize,
    (front ++ skipped ++ String.ofList e.cause.blamed).utf8ByteSize⟩
  line_eq : e.line = 1 + (front ++ skipped).toList.count '\n'
  column_eq : e.column = 1 + ((front ++ skipped).toList.reverse.takeWhile (· != '\n')).length
  isSlice : e.span.IsSlice source
  nonempty : e.span.start < e.span.stop
  /-- The tokens are those that have been cut off before the rejected one. -/
  run : (ScanState.start source).Run
    ⟨(skipped ++ String.ofList e.cause.blamed ++ later).toList, .after front, tokens⟩
  rejected : ∀ s, ¬ ScanState.Step
    ⟨(skipped ++ String.ofList e.cause.blamed ++ later).toList, .after front, tokens⟩ s
  /-- Without the rejected token, the text has these tokens and the end mark. -/
  front_eq : tokenize front = .ok (tokens.push (.at (.after front) .eof 1 []))

theorem LexFault.Blames.locate_eq
    {fault : LexFault} {text skipped later : List Char} (h : fault.Blames text skipped later)
    (front : String) :
    fault.locate (.after front) text =
      ⟨fault.cause,
        ⟨(front ++ String.ofList skipped).utf8ByteSize,
          (front ++ String.ofList skipped ++ String.ofList fault.cause.blamed).utf8ByteSize⟩,
        (Cursor.after (front ++ String.ofList skipped)).line,
        (Cursor.after (front ++ String.ofList skipped)).column⟩ := by
  rw [LexFault.locate, h.text_eq, h.skipped_eq, h.width_eq, List.take_left, List.drop_left,
    List.take_left, Cursor.advanceAll_after, Cursor.advanceAll_after]
  rfl

/-- Every error of a text is located: its characters stand in the text, its line and column are
those of the first of them, and the text before the rejected token has the tokens that were cut
off. -/
theorem exists_located_of_tokenize
    {source : String} {e : LexError} (h : tokenize source = .error e) :
    ∃ front skipped later tokens, e.Located source front skipped later tokens := by
  obtain ⟨first, rest, fault, place, tokens, hrun, hfault, rfl⟩ :=
    ScanState.exists_run_of_scan_error h
  obtain ⟨pieces, hcut⟩ := (ScanState.hasCut_start source).run hrun
  rw [List.nil_append] at hcut
  obtain ⟨skipped, later, hblames⟩ := blames_recognise hfault
  have hplace : place = .after (String.ofList (joined pieces)) := hcut.place_eq
  subst hplace
  have htext : (String.ofList skipped ++ String.ofList fault.cause.blamed ++
      String.ofList later).toList = first :: rest := by
    simp [hblames.text_eq]
  have hsource : source = String.ofList (joined pieces) ++ String.ofList skipped ++
      String.ofList fault.cause.blamed ++ String.ofList later := by
    rw [← String.toList_inj, hcut.source_eq, hblames.text_eq]
    simp
  rw [hblames.locate_eq]
  refine ⟨String.ofList (joined pieces), String.ofList skipped, String.ofList later, tokens,
    hsource, ?_, rfl, rfl, rfl, ?_, ?_, ?_, ?_, hcut.tokenize_eq⟩
  · rw [String.toList_ofList]
    exact hblames.follows
  · dsimp only
    rw [hsource]
    exact Span.isSlice_append _ _ _
  · dsimp only
    obtain ⟨c, more, hblamed⟩ := List.exists_cons_of_ne_nil hblames.blamed_ne
    have hpos := c.utf8Size_pos
    rw [String.utf8ByteSize_append (t := String.ofList fault.cause.blamed), hblamed,
      utf8ByteSize_ofList_cons]
    omega
  · rw [htext]
    exact hrun
  · rw [htext]
    intro s hstep
    cases hstep with
    | cut hlexeme =>
        rw [hfault] at hlexeme
        cases hlexeme

/-- The escape is invalid, in the second line and after a character of two bytes. -/
theorem exists_located_of_tokenize_sample :
    tokenize "a // é\n+ 'b\\q'" = .error ⟨.invalidEscape 'q', ⟨12, 14⟩, 2, 5⟩ ∧
      ∃ front skipped later tokens, LexError.Located ⟨.invalidEscape 'q', ⟨12, 14⟩, 2, 5⟩
        "a // é\n+ 'b\\q'" front skipped later tokens := by
  have herror : tokenize "a // é\n+ 'b\\q'" = .error ⟨.invalidEscape 'q', ⟨12, 14⟩, 2, 5⟩ := by
    decide +kernel
  exact ⟨herror, exists_located_of_tokenize herror⟩

end ExprFront
