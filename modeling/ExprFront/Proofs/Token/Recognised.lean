import ExprFront.Proofs.Token.Grammar
import Mathlib.Tactic.ByContra

/-!
# Recognition

Recognition takes from a text exactly the piece that the lexical grammar allows
there. Soundness goes through the classes in the order in which they are tried,
completeness through the grammar; so at every place at most one piece is allowed.
-/

namespace ExprFront

open Lexeme

/-! ## Comments and strings -/

/-- A comment ends in a text with its first end mark. -/
theorem commentRest?_eq_some_iff
    {text : List Char} {n : Nat} :
    commentRest? text = some n ↔
      ∃ body rest, text = body ++ '*' :: '/' :: rest ∧ n = body.length + 2 ∧
        ¬ ['*', '/'] <:+: body ++ ['*'] := by
  fun_induction commentRest? text generalizing n with
  | case1 => simp
  | case2 rest =>
      constructor
      · intro hn
        refine ⟨[], rest, rfl, ?_, by decide⟩
        simpa using hn.symm
      · rintro ⟨body, more, htext, rfl, hfirst⟩
        cases body with
        | nil => rfl
        | cons c body =>
            exfalso
            apply hfirst
            cases body with
            | nil => simp at htext
            | cons d body =>
                simp only [List.cons_append, List.cons.injEq] at htext
                obtain ⟨rfl, rfl, -⟩ := htext
                exact (List.prefix_append ['*', '/'] (body ++ ['*'])).isInfix
  | case3 c rest hnot ih =>
      constructor
      · intro hn
        obtain ⟨m, hm, rfl⟩ := Option.map_eq_some_iff.mp hn
        obtain ⟨body, more, rfl, rfl, hfirst⟩ := ih.mp hm
        refine ⟨c :: body, more, rfl, rfl, ?_⟩
        rw [List.cons_append, List.infix_cons_iff]
        rintro (⟨tail, htail⟩ | hinner)
        · cases body with
          | nil => simp at htail
          | cons d body =>
              simp only [List.cons_append, List.cons.injEq] at htail
              obtain ⟨rfl, rfl, -⟩ := htail
              exact hnot _ rfl rfl
        · exact hfirst hinner
      · rintro ⟨body, more, htext, rfl, hfirst⟩
        cases body with
        | nil =>
            simp only [List.nil_append, List.cons.injEq] at htext
            exact (hnot more htext.1 htext.2).elim
        | cons d body =>
            simp only [List.cons_append, List.cons.injEq] at htext
            obtain ⟨rfl, rfl⟩ := htext
            rw [List.cons_append, List.infix_cons_iff, not_or] at hfirst
            rw [ih.mpr ⟨body, more, rfl, rfl, hfirst.2⟩]
            rfl

theorem isSome_escaped?_iff
    {e : Char} :
    (Text.Quoted.escaped? e).isSome = true ↔ e ∈ ['n', 't', 'r', '0', '\\', '\''] := by
  unfold Text.Quoted.escaped?
  split <;> simp_all

theorem isLineBreak_eq_true_iff
    {c : Char} : Text.isLineBreak c = true ↔ c = '\n' ∨ c = '\r' := by
  simp [Text.isLineBreak]

theorem stringLength_of_stringBody
    {body : List Char} (hbody : StringBody body) (taken : Nat) (rest : List Char) :
    stringLength taken (body ++ '\'' :: rest) = .ok (taken + body.length + 1) := by
  induction hbody generalizing taken with
  | nil => simp [stringLength]
  | @plain c body hc _ ih =>
      simp only [List.mem_cons, List.not_mem_nil, or_false, not_or] at hc
      obtain ⟨hquote, hslash, hfeed, hreturn⟩ := hc
      have hbreak : Text.isLineBreak c = false := by
        simp [Text.isLineBreak, hfeed, hreturn]
      rw [List.cons_append, stringLength.eq_3 _ _ _ fun _ _ h => absurd h hslash, if_neg hquote,
        hbreak, if_neg (by decide), ih, List.length_cons]
      congr 1
      omega
  | @escape e body he _ ih =>
      have hbreak : Text.isLineBreak e = false := by
        revert he
        simp only [List.mem_cons, List.not_mem_nil, or_false]
        rintro (rfl | rfl | rfl | rfl | rfl | rfl) <;> decide
      rw [List.cons_append, List.cons_append, stringLength.eq_2, hbreak, if_neg (by decide),
        if_pos (isSome_escaped?_iff.mpr he), ih, List.length_cons, List.length_cons]
      congr 1
      omega

/-- A character that neither ends a literal nor starts an escape stands for itself. A backslash
would start one, since a character follows it. -/
theorem not_mem_of_not_escape
    {c : Char} {text : List Char} (hne : text ≠ [])
    (hslash : ∀ e more, c = '\\' → text = e :: more → False) (hquote : ¬ c = '\'')
    (hbreak : ¬ Text.isLineBreak c = true) : c ∉ ['\'', '\\', '\n', '\r'] := by
  obtain ⟨e, more, rfl⟩ := List.exists_cons_of_ne_nil hne
  rw [isLineBreak_eq_true_iff, not_or] at hbreak
  simp only [List.mem_cons, List.not_mem_nil, or_false, not_or]
  exact ⟨hquote, fun hc => hslash e more hc rfl, hbreak⟩

theorem exists_stringBody_of_stringLength
    {taken n : Nat} {text : List Char} (h : stringLength taken text = .ok n) :
    ∃ body rest, text = body ++ '\'' :: rest ∧ StringBody body ∧
      n = taken + body.length + 1 := by
  fun_induction stringLength taken text with
  | case1 => cases h
  | case2 => cases h
  | case3 taken e rest _ hescape ih =>
      obtain ⟨body, more, rfl, hbody, rfl⟩ := ih h
      refine ⟨'\\' :: e :: body, more, rfl, .escape (isSome_escaped?_iff.mp hescape) hbody, ?_⟩
      simp only [List.length_cons]
      omega
  | case4 => cases h
  | case5 taken rest =>
      cases h
      exact ⟨[], rest, rfl, .nil, rfl⟩
  | case6 => cases h
  | case7 taken c rest hslash hquote hbreak ih =>
      obtain ⟨body, more, rfl, hbody, rfl⟩ := ih h
      have hc := not_mem_of_not_escape (by simp) hslash hquote hbreak
      refine ⟨c :: body, more, rfl, .plain hc hbody, ?_⟩
      simp only [List.length_cons]
      omega

/-! ## Numbers -/

theorem isNameChar_of_isDigit
    {c : Char} (hc : c.isDigit = true) : isNameChar c = true := by
  simp [isNameChar, Char.isAlphanum, hc]

theorem EndsBefore.isDigit
    {rest : List Char} (hrest : EndsBefore isNameChar rest) : EndsBefore Char.isDigit rest := by
  intro c hc
  have hname := hrest c hc
  by_contra hdigit
  rw [isNameChar_of_isDigit (by simpa using hdigit)] at hname
  cases hname

theorem mem_suffixes_iff
    {suffix : Char} {kind : TokenKind} :
    (suffix, kind) ∈ [('u', .unsigned), ('b', .bit), ('o', TokenKind.octet)] ↔
      numberSuffix? suffix = some kind := by
  unfold numberSuffix?
  split <;> simp_all [eq_comm]

theorem isNameChar_of_numberSuffix?
    {suffix : Char} {kind : TokenKind} (h : numberSuffix? suffix = some kind) :
    isNameChar suffix = true := by
  unfold numberSuffix? at h
  split at h <;> first | decide | cases h

theorem numberEnding_fraction
    {d : Char} (hd : d.isDigit = true) (rest : List Char) :
    numberEnding ('.' :: d :: rest) = ⟨.real, 3, 2 + countWhile Char.isDigit rest⟩ := by
  rw [numberEnding.eq_1, if_pos hd]

theorem numberEnding_suffix
    {suffix : Char} {kind : TokenKind} {rest : List Char}
    (hsuffix : numberSuffix? suffix = some kind) (hrest : EndsBefore isNameChar rest) :
    numberEnding (suffix :: rest) = ⟨kind, 2, 1⟩ := by
  have hpoint : suffix ≠ '.' := by
    rintro rfl
    cases hsuffix
  have hends : rest.head?.any isNameChar = false := by
    cases hhead : rest.head? with
    | none => rfl
    | some c => simpa using hrest c hhead
  rw [numberEnding.eq_2 _ _ fun _ _ h => absurd h hpoint, hends, if_neg (by decide), hsuffix]

theorem numberEnding_of_endsBefore
    {rest : List Char} (hrest : EndsBefore isNameChar rest)
    (hpoint : ∀ d more, rest = '.' :: d :: more → d.isDigit = false) :
    numberEnding rest = ⟨.number, 1, 0⟩ := by
  unfold numberEnding
  split
  · rename_i d more
    rw [hpoint d more rfl, if_neg (by decide)]
  · rename_i c more _
    split
    · rfl
    · split
      · rename_i kind hsuffix
        have hname := hrest c rfl
        rw [isNameChar_of_numberSuffix? hsuffix] at hname
        cases hname
      · rfl
  · rfl

/-- What follows the digits of a number is a fraction, a suffix or no part of it. -/
theorem numberEnding_cases
    (text : List Char) :
    (∃ d more, text = '.' :: d :: more ∧ d.isDigit = true) ∨
    (∃ suffix kind more, text = suffix :: more ∧ numberSuffix? suffix = some kind ∧
      EndsBefore isNameChar more) ∨
    (numberEnding text = ⟨.number, 1, 0⟩ ∧
      ∀ d more, text = '.' :: d :: more → d.isDigit = false) := by
  unfold numberEnding
  split
  · rename_i d more
    split
    · rename_i hd
      exact .inl ⟨d, more, rfl, hd⟩
    · rename_i hd
      refine .inr (.inr ⟨rfl, fun e rest htext => ?_⟩)
      obtain rfl : d = e := by simpa using (List.cons.inj (List.cons.inj htext).2).1
      simpa using hd
  · rename_i c more hnot
    have hpoint : ∀ d rest, c :: more = '.' :: d :: rest → d.isDigit = false := by
      rintro d rest htext
      obtain ⟨rfl, rfl⟩ := List.cons.inj htext
      exact (hnot d rest rfl rfl).elim
    split
    · exact .inr (.inr ⟨rfl, hpoint⟩)
    · rename_i hends
      split
      · rename_i kind hsuffix
        refine .inr (.inl ⟨c, kind, more, rfl, hsuffix, fun d hd => ?_⟩)
        simpa [Option.mem_def.mp hd] using hends
      · exact .inr (.inr ⟨rfl, hpoint⟩)
  · exact .inr (.inr ⟨rfl, by simp⟩)

/-- A number is read as far as its ending goes, if no name follows. -/
theorem number_eq_ok
    {first : Char} {digits ending rest : List Char} {kind : TokenKind} {size : Nat}
    (hdigits : ∀ d ∈ digits, d.isDigit = true)
    (hstop : EndsBefore Char.isDigit (ending ++ rest))
    (hending : numberEnding (ending ++ rest) = ⟨kind, size, ending.length⟩)
    (hrest : EndsBefore isNameChar rest) :
    number first (digits ++ (ending ++ rest)) =
      .ok ⟨kind, size, digits.length + ending.length⟩ := by
  have hcount : countWhile Char.isDigit (digits ++ (ending ++ rest)) = digits.length :=
    countWhile_append hdigits hstop
  have hdrop : (digits ++ (ending ++ rest)).drop (digits.length + ending.length) = rest := by
    rw [← List.append_assoc, ← List.length_append, List.drop_left]
  simp only [number, hcount, List.drop_left, hending, hdrop, countWhile_eq_zero_iff.mpr hrest,
    if_pos]

/-! ## First characters -/

theorem ne_of_test
    {p : Char → Bool} {c d : Char} (hc : p c = true) (hd : p d = false) : c ≠ d := by
  rintro rfl
  rw [hc] at hd
  cases hd

theorem toNat_of_isDigit
    {c : Char} (hc : c.isDigit = true) : 48 ≤ c.toNat ∧ c.toNat ≤ 57 := by
  simpa [Char.isDigit, UInt32.le_iff_toNat_le] using hc

theorem toNat_of_isNameStart
    {c : Char} (hc : isNameStart c = true) : 65 ≤ c.toNat ∧ c.toNat ≤ 122 := by
  unfold isNameStart Char.isAlpha Char.isUpper Char.isLower at hc
  simp only [UInt32.le_iff_toNat_le, Bool.or_eq_true, Bool.and_eq_true, decide_eq_true_eq,
    beq_iff_eq, ge_iff_le] at hc
  rcases hc with (⟨hlow, hhigh⟩ | ⟨hlow, hhigh⟩) | rfl
  · exact ⟨hlow, Nat.le_trans hhigh (by decide)⟩
  · exact ⟨Nat.le_trans (by decide) hlow, hhigh⟩
  · decide

/-- The printable characters of the basic set are no blanks. -/
theorem isSpace_eq_false
    {c : Char} (hlow : 33 ≤ c.toNat) (hhigh : c.toNat ≤ 132) : Text.isSpace c = false := by
  have hblank : Text.isBlank c = false := by
    rw [Text.isBlank, Bool.eq_false_iff]
    intro hholds
    obtain ⟨range, hrange, hfrom, hto⟩ := Text.CharTable.holds_iff.mp hholds
    simp only [Text.blankTable, List.mem_cons, List.not_mem_nil, or_false] at hrange
    rcases hrange with rfl | rfl | rfl | rfl | rfl | rfl | rfl | rfl | rfl | rfl <;>
      dsimp only at hfrom hto <;> omega
  simp [Text.isSpace, hblank]

theorem isLineBreak_eq_false
    {c : Char} (hlow : 33 ≤ c.toNat) : Text.isLineBreak c = false := by
  rw [Bool.eq_false_iff]
  intro hbreak
  rcases isLineBreak_eq_true_iff.mp hbreak with rfl | rfl <;> revert hlow <;> decide

theorem recognise_of_isLineBreak
    {c : Char} (hc : Text.isLineBreak c = true) (rest : List Char) :
    recognise c rest = .ok (run .newline Text.isLineBreak rest) := by
  rcases isLineBreak_eq_true_iff.mp hc with rfl | rfl <;> simp [recognise, Text.isLineBreak]

theorem recognise_of_isSpace
    {c : Char} (hc : Text.isSpace c = true) (rest : List Char) :
    recognise c rest = .ok (run .whitespace Text.isSpace rest) := by
  have hslash : c ≠ '/' := ne_of_test hc (by decide)
  have hquote : c ≠ '\'' := ne_of_test hc (by decide)
  have hbreak : Text.isLineBreak c = false := by
    simp only [Text.isSpace, Bool.and_eq_true, Bool.not_eq_true'] at hc
    exact hc.2
  simp [recognise, hslash, hquote, hbreak, hc]

theorem recognise_of_isDigit
    {c : Char} (hc : c.isDigit = true) (rest : List Char) :
    recognise c rest = number c rest := by
  obtain ⟨hlow, hhigh⟩ := toNat_of_isDigit hc
  have hslash : c ≠ '/' := ne_of_test hc (by decide)
  have hquote : c ≠ '\'' := ne_of_test hc (by decide)
  have hspace := isSpace_eq_false (c := c) (by omega) (by omega)
  have hbreak := isLineBreak_eq_false (c := c) (by omega)
  simp [recognise, hslash, hquote, hspace, hbreak, hc]

theorem recognise_of_isNameStart
    {c : Char} (hc : isNameStart c = true) (rest : List Char) :
    recognise c rest = .ok (run .identifier isNameChar rest) := by
  obtain ⟨hlow, hhigh⟩ := toNat_of_isNameStart hc
  have hslash : c ≠ '/' := ne_of_test hc (by decide)
  have hquote : c ≠ '\'' := ne_of_test hc (by decide)
  have hdigit : c.isDigit = false := by
    rw [Bool.eq_false_iff]
    intro hdigit
    have := toNat_of_isDigit hdigit
    omega
  have hspace := isSpace_eq_false (c := c) (by omega) (by omega)
  have hbreak := isLineBreak_eq_false (c := c) (by omega)
  simp [recognise, hslash, hquote, hspace, hbreak, hdigit, hc]

theorem recognise_hash (rest : List Char) : recognise '#' rest = directive rest := rfl

theorem recognise_at (rest : List Char) : recognise '@' rest = specialObject rest := rfl

/-- Where no other class is selected, a sign is read. -/
theorem recognise_eq_sign
    {c : Char} {rest : List Char} (hcomment : ¬ StartsComment (c :: rest)) (hquote : c ≠ '\'')
    (hbreak : Text.isLineBreak c = false) (hspace : Text.isSpace c = false)
    (hdigit : c.isDigit = false) (hname : isNameStart c = false) (hhash : c ≠ '#')
    (hat : c ≠ '@') : recognise c rest = sign c rest := by
  have hstarts : ∀ d, c = '/' → rest.head? = some d → ['/', d] <+: c :: rest := by
    rintro d rfl hhead
    obtain ⟨tail, rfl⟩ := List.head?_eq_some_iff.mp hhead
    exact List.prefix_append ['/', d] tail
  have hline : ¬ (c = '/' ∧ rest.head? = some '/') :=
    fun h => hcomment (.inl (hstarts '/' h.1 h.2))
  have hblock : ¬ (c = '/' ∧ rest.head? = some '*') :=
    fun h => hcomment (.inr (hstarts '*' h.1 h.2))
  simp only [recognise, if_neg hline, if_neg hblock, if_neg hquote, hbreak, hspace, hdigit, hname,
    if_neg hhash, if_neg hat, Bool.false_eq_true, if_false]

/-! ## From the grammar to recognition -/

/-- The first characters of a text are recognised as a piece of the kind. -/
def RecognisedAs (kind : TokenKind) (piece rest : List Char) : Prop :=
  ∃ first more, piece = first :: more ∧
    recognise first (more ++ rest) = .ok ⟨kind, kind.units, more.length⟩

theorem run_append
    {kind : TokenKind} {p : Char → Bool} {more rest : List Char}
    (hmore : ∀ c ∈ more, p c = true) (hrest : EndsBefore p rest) :
    run kind p (more ++ rest) = ⟨kind, 1, more.length⟩ := by
  rw [run, countWhile_append hmore hrest]

theorem recognisedAs_lineComment
    {body rest : List Char} (hbody : ∀ c ∈ body, c ≠ '\n')
    (hrest : EndsBefore (· != '\n') rest) :
    RecognisedAs .lineComment ('/' :: '/' :: body) rest := by
  have hmore : ∀ c ∈ '/' :: body, (c != '\n') = true := by
    intro c hc
    rcases List.mem_cons.mp hc with rfl | hc
    · decide
    · simpa using hbody c hc
  refine ⟨'/', '/' :: body, rfl, ?_⟩
  rw [recognise, if_pos ⟨rfl, rfl⟩, run_append hmore hrest]
  rfl

theorem recognisedAs_blockComment
    {body : List Char} (hfirst : ¬ ['*', '/'] <:+: body ++ ['*']) (rest : List Char) :
    RecognisedAs .blockComment ('/' :: '*' :: (body ++ ['*', '/'])) rest := by
  have hcount : commentRest? (body ++ '*' :: '/' :: rest) = some (body.length + 2) :=
    commentRest?_eq_some_iff.mpr ⟨body, rest, rfl, rfl, hfirst⟩
  refine ⟨'/', '*' :: (body ++ ['*', '/']), rfl, ?_⟩
  rw [recognise, if_neg (by simp), if_pos ⟨rfl, rfl⟩]
  simp [blockComment, hcount, TokenKind.units]
  omega

theorem recognisedAs_string
    {body : List Char} (hbody : StringBody body) (rest : List Char) :
    RecognisedAs .string ('\'' :: (body ++ ['\''])) rest := by
  have hlength := stringLength_of_stringBody hbody 1 rest
  refine ⟨'\'', body ++ ['\''], rfl, ?_⟩
  rw [recognise, if_neg (by simp), if_neg (by simp), if_pos rfl, string, List.append_assoc,
    List.singleton_append, hlength]
  simp [TokenKind.units]
  omega

theorem recognisedAs_newline
    {run rest : List Char} (hne : run ≠ []) (hrun : ∀ c ∈ run, c = '\n' ∨ c = '\r')
    (hrest : EndsBefore Text.isLineBreak rest) : RecognisedAs .newline run rest := by
  obtain ⟨first, more, rfl⟩ := List.exists_cons_of_ne_nil hne
  have hbreaks : ∀ c ∈ first :: more, Text.isLineBreak c = true :=
    fun c hc => isLineBreak_eq_true_iff.mpr (hrun c hc)
  refine ⟨first, more, rfl, ?_⟩
  rw [recognise_of_isLineBreak (hbreaks first List.mem_cons_self),
    run_append (fun c hc => hbreaks c (List.mem_cons_of_mem first hc)) hrest]
  rfl

theorem recognisedAs_whitespace
    {run rest : List Char} (hne : run ≠ [])
    (hrun : ∀ c ∈ run, Text.isBlank c = true ∧ c ≠ '\n' ∧ c ≠ '\r')
    (hrest : EndsBefore Text.isSpace rest) : RecognisedAs .whitespace run rest := by
  obtain ⟨first, more, rfl⟩ := List.exists_cons_of_ne_nil hne
  have hspaces : ∀ c ∈ first :: more, Text.isSpace c = true := by
    intro c hc
    obtain ⟨hblank, hfeed, hreturn⟩ := hrun c hc
    simp [Text.isSpace, Text.isLineBreak, hblank, hfeed, hreturn]
  refine ⟨first, more, rfl, ?_⟩
  rw [recognise_of_isSpace (hspaces first List.mem_cons_self),
    run_append (fun c hc => hspaces c (List.mem_cons_of_mem first hc)) hrest]
  rfl

/-- A number whose ending is known is recognised with it. -/
theorem recognisedAs_of_ending
    {digits ending rest : List Char} {kind : TokenKind} (hdigits : IsDigits digits)
    (hstop : EndsBefore Char.isDigit (ending ++ rest))
    (hending : numberEnding (ending ++ rest) = ⟨kind, kind.units, ending.length⟩)
    (hrest : EndsBefore isNameChar rest) : RecognisedAs kind (digits ++ ending) rest := by
  obtain ⟨hne, hall⟩ := hdigits
  obtain ⟨first, more, rfl⟩ := List.exists_cons_of_ne_nil hne
  refine ⟨first, more ++ ending, rfl, ?_⟩
  rw [recognise_of_isDigit (hall first List.mem_cons_self), List.append_assoc,
    number_eq_ok (fun d hd => hall d (List.mem_cons_of_mem first hd)) hstop hending hrest,
    List.length_append]

theorem recognisedAs_number
    {digits rest : List Char} (hdigits : IsDigits digits) (hrest : EndsBefore isNameChar rest)
    (hpoint : ∀ d more, rest = '.' :: d :: more → d.isDigit = false) :
    RecognisedAs .number digits rest := by
  have hending : numberEnding ([] ++ rest) = ⟨.number, TokenKind.number.units, 0⟩ :=
    numberEnding_of_endsBefore hrest hpoint
  have hnumber : RecognisedAs .number (digits ++ []) rest :=
    recognisedAs_of_ending hdigits hrest.isDigit hending hrest
  rwa [List.append_nil] at hnumber

theorem recognisedAs_real
    {whole fraction rest : List Char} (hwhole : IsDigits whole) (hfraction : IsDigits fraction)
    (hrest : EndsBefore isNameChar rest) :
    RecognisedAs .real (whole ++ '.' :: fraction) rest := by
  obtain ⟨hne, hall⟩ := hfraction
  obtain ⟨d, more, rfl⟩ := List.exists_cons_of_ne_nil hne
  have hcount : countWhile Char.isDigit (more ++ rest) = more.length :=
    countWhile_append (fun c hc => hall c (List.mem_cons_of_mem d hc)) hrest.isDigit
  refine recognisedAs_of_ending hwhole ?_ ?_ hrest
  · intro c hc
    obtain rfl : '.' = c := Option.some.inj hc
    decide
  · rw [List.cons_append, List.cons_append, numberEnding_fraction (hall d List.mem_cons_self),
      hcount]
    simp [TokenKind.units]
    omega

theorem recognisedAs_suffixed
    {digits rest : List Char} {suffix : Char} {kind : TokenKind} (hdigits : IsDigits digits)
    (hsuffix : (suffix, kind) ∈ [('u', .unsigned), ('b', .bit), ('o', TokenKind.octet)])
    (hrest : EndsBefore isNameChar rest) : RecognisedAs kind (digits ++ [suffix]) rest := by
  have hunits : suffix.isDigit = false ∧ kind.units = 2 := by
    simp only [List.mem_cons, Prod.mk.injEq, List.not_mem_nil, or_false] at hsuffix
    rcases hsuffix with ⟨rfl, rfl⟩ | ⟨rfl, rfl⟩ | ⟨rfl, rfl⟩ <;> decide
  refine recognisedAs_of_ending hdigits ?_ ?_ hrest
  · intro c hc
    obtain rfl : suffix = c := Option.some.inj hc
    exact hunits.1
  · rw [List.singleton_append, numberEnding_suffix (mem_suffixes_iff.mp hsuffix) hrest, hunits.2]
    rfl

theorem recognisedAs_identifier
    {first : Char} {more rest : List Char} (hfirst : isNameStart first = true)
    (hmore : ∀ c ∈ more, isNameChar c = true) (hrest : EndsBefore isNameChar rest) :
    RecognisedAs .identifier (first :: more) rest := by
  refine ⟨first, more, rfl, ?_⟩
  rw [recognise_of_isNameStart hfirst, run_append hmore hrest]
  rfl

theorem nameText_append
    {name : String} {rest : List Char} (hname : ∀ c ∈ name.toList, isNameChar c = true)
    (hrest : EndsBefore isNameChar rest) : nameText (name.toList ++ rest) = name := by
  rw [nameText, ← take_countWhile, countWhile_append hname hrest, List.take_left,
    String.ofList_toList]

theorem recognisedAs_directive
    (d : Directive) {rest : List Char} (hrest : EndsBefore isNameChar rest) :
    RecognisedAs (.directive d) ('#' :: d.spelling.toList) rest := by
  have hname := d.isNameChar_of_mem_spelling
  refine ⟨'#', d.spelling.toList, rfl, ?_⟩
  rw [recognise_hash]
  simp only [directive, nameText_append hname hrest, d.ofSpelling?_spelling,
    countWhile_append hname hrest]
  rfl

theorem recognisedAs_specialObject
    (o : SpecialObject) {rest : List Char} (hrest : EndsBefore isNameChar rest) :
    RecognisedAs (.specialObject o) ('@' :: o.spelling.toList) rest := by
  have hname := o.isNameChar_of_mem_spelling
  refine ⟨'@', o.spelling.toList, rfl, ?_⟩
  rw [recognise_at]
  simp only [specialObject, nameText_append hname hrest, o.ofSpelling?_spelling,
    countWhile_append hname hrest]
  rfl

theorem recognisedAs_operator
    {op : Operator} {rest : List Char} (hlongest : op.LongestAt (op.spelling.toList ++ rest))
    (hcomment : ¬ StartsComment (op.spelling.toList ++ rest)) :
    RecognisedAs (.operator op) op.spelling.toList rest := by
  obtain ⟨first, more, hspelling, hquote, hbreak, hspace, hdigit, hname, hhash, hat, -⟩ :=
    Operator.exists_spelling_cons hlongest.1
  have hlength : op.spelling.length = more.length + 1 := by
    rw [← String.length_toList, hspelling, List.length_cons]
  rw [hspelling, List.cons_append] at hcomment hlongest
  refine ⟨first, more, hspelling, ?_⟩
  rw [recognise_eq_sign hcomment hquote hbreak hspace hdigit hname hhash hat, sign,
    Operator.longestMatch?_eq_some_iff.mpr hlongest]
  simp [hlength, TokenKind.units]

/-- No symbol operator starts with a punctuation mark or a point. -/
theorem longestMatch?_eq_none
    {c : Char} (hc : (mark? c).isSome = true ∨ c = '.') (rest : List Char) :
    Operator.longestMatch? (c :: rest) = none := by
  rw [Operator.longestMatch?_eq_none_iff]
  intro op hop hprefix
  obtain ⟨first, more, hspelling, -, -, -, -, -, -, -, hmark, hpoint⟩ :=
    Operator.exists_spelling_cons hop
  rw [hspelling] at hprefix
  obtain rfl : first = c := (List.cons_prefix_cons.mp hprefix).1
  rcases hc with hc | hc
  · rw [hmark] at hc
    cases hc
  · exact hpoint hc

theorem recognisedAs_mark
    {p : Punctuation} (hp : p ≠ .ellipsis) (rest : List Char) :
    RecognisedAs (.punctuation p) p.spelling.toList rest := by
  obtain ⟨c, hspelling, hclass⟩ : ∃ c, p.spelling.toList = [c] ∧
      recognise c rest = sign c rest := by
    cases p <;> first | contradiction | exact ⟨_, rfl, rfl⟩
  have hmark : mark? c = some p := mark?_eq_some_iff.mpr ⟨hp, hspelling⟩
  refine ⟨c, [], hspelling, ?_⟩
  rw [List.nil_append, hclass, sign, longestMatch?_eq_none (.inl (by simp [hmark])), hmark]
  rfl

theorem recognise_point
    (rest : List Char) : recognise '.' rest = .ok (point rest) := by
  have hclass : recognise '.' rest = sign '.' rest := rfl
  rw [hclass, sign, longestMatch?_eq_none (.inr rfl)]
  rfl

theorem recognisedAs_dot
    {rest : List Char} (hrest : ¬ ['.', '.'] <+: rest) :
    RecognisedAs (.operator .dot) ['.'] rest := by
  refine ⟨'.', [], rfl, ?_⟩
  rw [List.nil_append, recognise_point]
  unfold point
  split
  · exact absurd (List.prefix_append ['.', '.'] _) hrest
  · rfl

/-- Every piece of the grammar is recognised. -/
theorem IsPiece.recognisedAs
    {kind : TokenKind} {piece rest : List Char} (h : IsPiece kind piece rest) :
    RecognisedAs kind piece rest := by
  cases h with
  | lineComment hbody hrest => exact recognisedAs_lineComment hbody hrest
  | blockComment hfirst => exact recognisedAs_blockComment hfirst rest
  | string hbody => exact recognisedAs_string hbody rest
  | newline hne hrun hrest => exact recognisedAs_newline hne hrun hrest
  | whitespace hne hrun hrest => exact recognisedAs_whitespace hne hrun hrest
  | number hdigits hrest hpoint => exact recognisedAs_number hdigits hrest hpoint
  | real hwhole hfraction hrest => exact recognisedAs_real hwhole hfraction hrest
  | suffixed hdigits hsuffix hrest => exact recognisedAs_suffixed hdigits hsuffix hrest
  | identifier hfirst hmore hrest => exact recognisedAs_identifier hfirst hmore hrest
  | directive hrest => exact recognisedAs_directive _ hrest
  | specialObject hrest => exact recognisedAs_specialObject _ hrest
  | operator hlongest hcomment => exact recognisedAs_operator hlongest hcomment
  | mark hp => exact recognisedAs_mark hp rest
  | ellipsis => exact ⟨'.', ['.', '.'], rfl, recognise_point _⟩
  | dot hrest => exact recognisedAs_dot hrest

/-! ## From recognition to the grammar -/

/-- The lexeme is a piece at the start of the text. -/
def Lexeme.Fits (lexeme : Lexeme) (first : Char) (rest : List Char) : Prop :=
  lexeme.size = lexeme.kind.units ∧
    IsPiece lexeme.kind (first :: rest.take lexeme.tail) (rest.drop lexeme.tail)

variable {first : Char} {rest : List Char} {lexeme : Lexeme}

theorem fits_lineComment
    (hrest : rest.head? = some '/') : (run .lineComment (· != '\n') rest).Fits '/' rest := by
  obtain ⟨tail, rfl⟩ := List.head?_eq_some_iff.mp hrest
  have hcount : countWhile (· != '\n') ('/' :: tail) = countWhile (· != '\n') tail + 1 := by
    simp [countWhile]
  refine ⟨rfl, ?_⟩
  simp only [run, hcount, List.take_succ_cons, List.drop_succ_cons]
  refine .lineComment ?_ (endsBefore_drop_countWhile _ tail)
  intro c hc
  simpa using mem_take_countWhile hc

theorem fits_blockComment
    (hrest : rest.head? = some '*') (h : blockComment rest.tail = .ok lexeme) :
    lexeme.Fits '/' rest := by
  obtain ⟨tail, rfl⟩ := List.head?_eq_some_iff.mp hrest
  rw [List.tail_cons, blockComment] at h
  split at h
  · rename_i n hcount
    obtain ⟨body, more, rfl, rfl, hfirst⟩ := commentRest?_eq_some_iff.mp hcount
    cases h
    refine ⟨rfl, ?_⟩
    have hsplit : '*' :: (body ++ '*' :: '/' :: more) = '*' :: (body ++ ['*', '/']) ++ more := by
      simp
    have hlength : 1 + (body.length + 2) = ('*' :: (body ++ ['*', '/'])).length := by
      simp
      omega
    simp only [hsplit, hlength, List.take_left, List.drop_left]
    exact .blockComment hfirst
  · cases h

theorem fits_string
    (h : string rest = .ok lexeme) : lexeme.Fits '\'' rest := by
  rw [string] at h
  split at h
  · rename_i n hlength
    obtain ⟨body, more, rfl, hbody, rfl⟩ := exists_stringBody_of_stringLength hlength
    cases h
    refine ⟨rfl, ?_⟩
    have hsplit : body ++ '\'' :: more = body ++ ['\''] ++ more := by simp
    have hlength : 1 + body.length + 1 - 1 = (body ++ ['\'']).length := by
      simp
      omega
    simp only [hsplit, hlength, List.take_left, List.drop_left]
    exact .string hbody
  · cases h

/-- A run of characters of a class is a piece of the kind, if the kind is that of such runs. -/
theorem fits_run
    {kind : TokenKind} {p : Char → Bool} (hunits : kind.units = 1)
    (hpiece : ∀ more rest, (∀ c ∈ more, p c = true) → EndsBefore p rest →
      IsPiece kind (first :: more) rest) : (run kind p rest).Fits first rest :=
  ⟨hunits.symm, hpiece _ _ (fun _ hc => mem_take_countWhile hc) (endsBefore_drop_countWhile p rest)⟩

theorem fits_newline
    (hfirst : Text.isLineBreak first = true) :
    (run .newline Text.isLineBreak rest).Fits first rest := by
  apply fits_run rfl
  intro more rest hmore hrest
  refine .newline (List.cons_ne_nil first more) ?_ hrest
  intro c hc
  rcases List.mem_cons.mp hc with rfl | hc
  · exact isLineBreak_eq_true_iff.mp hfirst
  · exact isLineBreak_eq_true_iff.mp (hmore c hc)

theorem isSpace_eq_true_iff
    {c : Char} : Text.isSpace c = true ↔ Text.isBlank c = true ∧ c ≠ '\n' ∧ c ≠ '\r' := by
  simp [Text.isSpace, Text.isLineBreak]

theorem fits_whitespace
    (hfirst : Text.isSpace first = true) :
    (run .whitespace Text.isSpace rest).Fits first rest := by
  apply fits_run rfl
  intro more rest hmore hrest
  refine .whitespace (List.cons_ne_nil first more) ?_ hrest
  intro c hc
  rcases List.mem_cons.mp hc with rfl | hc
  · exact isSpace_eq_true_iff.mp hfirst
  · exact isSpace_eq_true_iff.mp (hmore c hc)

/-- A number is its leading digits and their ending, and no name follows it. -/
theorem exists_ending_of_number
    (h : number first rest = .ok lexeme) :
    ∃ digits text, rest = digits ++ text ∧ (∀ d ∈ digits, d.isDigit = true) ∧
      lexeme = ⟨(numberEnding text).kind, (numberEnding text).size,
        digits.length + (numberEnding text).tail⟩ ∧
      EndsBefore isNameChar (text.drop (numberEnding text).tail) := by
  have hlength : (rest.take (countWhile Char.isDigit rest)).length = countWhile Char.isDigit rest :=
    List.length_take_of_le (countWhile_le_length _ rest)
  rw [number] at h
  split at h
  · rename_i hsurplus
    cases h
    refine ⟨_, _, (List.take_append_drop (countWhile Char.isDigit rest) rest).symm,
      fun _ hd => mem_take_countWhile hd, by rw [hlength], ?_⟩
    rw [List.drop_drop]
    exact countWhile_eq_zero_iff.mp hsurplus
  · cases h

theorem fits_number
    (hfirst : first.isDigit = true) (h : number first rest = .ok lexeme) :
    lexeme.Fits first rest := by
  obtain ⟨digits, text, rfl, hall, rfl, hrest⟩ := exists_ending_of_number h
  have hdigits : IsDigits (first :: digits) := by
    refine ⟨List.cons_ne_nil _ _, ?_⟩
    intro d hd
    rcases List.mem_cons.mp hd with rfl | hd
    · exact hfirst
    · exact hall d hd
  simp only [Lexeme.Fits, List.take_length_add_append, List.drop_length_add_append]
  rcases numberEnding_cases text with
    ⟨d, more, rfl, hd⟩ | ⟨suffix, kind, more, rfl, hsuffix, hmore⟩ | ⟨hending, hpoint⟩
  · rw [numberEnding_fraction hd] at hrest ⊢
    have hfraction : IsDigits (d :: more.take (countWhile Char.isDigit more)) := by
      refine ⟨List.cons_ne_nil _ _, ?_⟩
      intro c hc
      rcases List.mem_cons.mp hc with rfl | hc
      · exact hd
      · exact mem_take_countWhile hc
    rw [Nat.add_comm 2] at hrest ⊢
    exact ⟨rfl, .real hdigits hfraction hrest⟩
  · rw [numberEnding_suffix hsuffix hmore] at hrest ⊢
    have hmem := mem_suffixes_iff.mpr hsuffix
    refine ⟨?_, .suffixed hdigits hmem hrest⟩
    simp only [List.mem_cons, Prod.mk.injEq, List.not_mem_nil, or_false] at hmem
    rcases hmem with ⟨-, rfl⟩ | ⟨-, rfl⟩ | ⟨-, rfl⟩ <;> rfl
  · rw [hending] at hrest ⊢
    rw [List.take_zero, List.append_nil]
    exact ⟨rfl, .number hdigits hrest hpoint⟩

theorem fits_identifier
    (hfirst : isNameStart first = true) : (run .identifier isNameChar rest).Fits first rest := by
  apply fits_run rfl
  intro more rest hmore hrest
  exact .identifier hfirst hmore hrest

/-- The name at the start of a text is followed by no further character of a name. -/
theorem take_countWhile_eq_toList_nameText
    (rest : List Char) :
    rest.take (countWhile isNameChar rest) = (nameText rest).toList := by
  rw [take_countWhile, nameText, String.toList_ofList]

theorem fits_directive
    (h : directive rest = .ok lexeme) : lexeme.Fits '#' rest := by
  simp only [directive] at h
  split at h
  · rename_i d hd
    cases h
    refine ⟨rfl, ?_⟩
    rw [take_countWhile_eq_toList_nameText, ← Directive.ofSpelling?_eq_some_iff.mp hd]
    exact .directive (endsBefore_drop_countWhile _ rest)
  · cases h

theorem fits_specialObject
    (h : specialObject rest = .ok lexeme) : lexeme.Fits '@' rest := by
  simp only [specialObject] at h
  split at h
  · rename_i o ho
    cases h
    refine ⟨rfl, ?_⟩
    rw [take_countWhile_eq_toList_nameText, ← SpecialObject.ofSpelling?_eq_some_iff.mp ho]
    exact .specialObject (endsBefore_drop_countWhile _ rest)
  · cases h

theorem fits_operator
    {op : Operator} (hcomment : ¬ StartsComment (first :: rest))
    (hmatch : Operator.longestMatch? (first :: rest) = some op) :
    (⟨.operator op, 1, op.spelling.length - 1⟩ : Lexeme).Fits first rest := by
  have hlongest := Operator.longestMatch?_eq_some_iff.mp hmatch
  obtain ⟨c, more, hspelling, -⟩ := Operator.exists_spelling_cons hlongest.1
  have hprefix := hlongest.2.1
  rw [hspelling, List.cons_prefix_cons] at hprefix
  obtain ⟨rfl, tail, rfl⟩ := hprefix
  have hlength : op.spelling.length - 1 = more.length := by
    rw [← String.length_toList, hspelling, List.length_cons, Nat.add_sub_cancel]
  refine ⟨rfl, ?_⟩
  simp only [hlength, List.take_left, List.drop_left]
  rw [← List.cons_append, ← hspelling] at hlongest hcomment
  rw [← hspelling]
  exact .operator hlongest hcomment

theorem fits_mark
    {p : Punctuation} (hmark : mark? first = some p) :
    (⟨.punctuation p, 1, 0⟩ : Lexeme).Fits first rest := by
  obtain ⟨hp, hspelling⟩ := mark?_eq_some_iff.mp hmark
  refine ⟨rfl, ?_⟩
  rw [List.take_zero, List.drop_zero, ← hspelling]
  exact .mark hp

theorem fits_point
    (rest : List Char) : (point rest).Fits '.' rest := by
  unfold point
  split
  · exact ⟨rfl, .ellipsis⟩
  · rename_i hnot
    refine ⟨rfl, .dot ?_⟩
    rintro ⟨tail, rfl⟩
    exact hnot tail rfl

theorem fits_sign
    (hcomment : ¬ StartsComment (first :: rest)) (h : sign first rest = .ok lexeme) :
    lexeme.Fits first rest := by
  rw [sign] at h
  split at h
  · rename_i op hmatch
    cases h
    exact fits_operator hcomment hmatch
  · split at h
    · rename_i p hmark
      cases h
      exact fits_mark hmark
    · split at h
      · rename_i hpoint
        cases h
        rw [hpoint]
        exact fits_point rest
      · cases h

/-- What is recognised is a piece of the grammar. -/
theorem fits_of_recognise
    (h : recognise first rest = .ok lexeme) : lexeme.Fits first rest := by
  by_cases hline : first = '/' ∧ rest.head? = some '/'
  · rw [recognise, if_pos hline] at h
    cases h
    rw [hline.1]
    exact fits_lineComment hline.2
  by_cases hblock : first = '/' ∧ rest.head? = some '*'
  · rw [recognise, if_neg hline, if_pos hblock] at h
    rw [hblock.1]
    exact fits_blockComment hblock.2 h
  have hcomment : ¬ StartsComment (first :: rest) := by
    rintro (⟨tail, htail⟩ | ⟨tail, htail⟩)
    · obtain ⟨rfl, rfl⟩ := List.cons.inj htail
      exact hline ⟨rfl, rfl⟩
    · obtain ⟨rfl, rfl⟩ := List.cons.inj htail
      exact hblock ⟨rfl, rfl⟩
  rw [recognise, if_neg hline, if_neg hblock] at h
  -- The classes that are left are told apart by the first character alone.
  split at h
  · rename_i hquote
    rw [hquote]
    exact fits_string h
  · split at h
    · cases h
      exact fits_newline ‹_›
    · split at h
      · cases h
        exact fits_whitespace ‹_›
      · split at h
        · exact fits_number ‹_› h
        · split at h
          · cases h
            exact fits_identifier ‹_›
          · split at h
            · rename_i hhash
              rw [hhash]
              exact fits_directive h
            · split at h
              · rename_i hat
                rw [hat]
                exact fits_specialObject h
              · exact fits_sign hcomment h

/-- At every place the grammar allows one piece at most. -/
theorem IsPiece.unique
    {kind kind' : TokenKind} {piece piece' rest rest' : List Char} (h : IsPiece kind piece rest)
    (h' : IsPiece kind' piece' rest') (htext : piece ++ rest = piece' ++ rest') :
    kind = kind' ∧ piece = piece' ∧ rest = rest' := by
  obtain ⟨first, more, rfl, hrecognise⟩ := h.recognisedAs
  obtain ⟨first', more', rfl, hrecognise'⟩ := h'.recognisedAs
  obtain ⟨rfl, hmore⟩ := List.cons.inj htext
  rw [show more ++ rest = more' ++ rest' from hmore, hrecognise'] at hrecognise
  obtain ⟨hkind, -, hlength⟩ : kind' = kind ∧ kind'.units = kind.units ∧
      more'.length = more.length := by
    simpa using hrecognise
  obtain ⟨rfl, rfl⟩ := List.append_inj hmore hlength.symm
  exact ⟨hkind.symm, rfl, rfl⟩

end ExprFront
