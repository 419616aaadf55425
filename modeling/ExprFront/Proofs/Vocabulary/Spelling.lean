import ExprFront.Token.Lexeme

/-!
# Spellings

What the tables fix about spellings: an entry is found by its spelling and by no
other, the keywords are names, and no symbol operator starts with a character
that selects another class of pieces. The longest symbol operator at the start
of a text is the only one of its length there, so "longest" names one operator.
-/

namespace ExprFront

/-! ## Keywords -/

namespace Directive

theorem ofSpelling?_spelling
    (d : Directive) : ofSpelling? d.spelling = some d := by
  cases d <;> decide

/-- A text is the keyword of the directive that it is looked up as. -/
theorem ofSpelling?_eq_some_iff
    {text : String} {d : Directive} : ofSpelling? text = some d ↔ d.spelling = text := by
  constructor
  · intro hfound
    simpa using List.find?_some hfound
  · rintro rfl
    exact ofSpelling?_spelling d

theorem isNameChar_of_mem_spelling
    (d : Directive) : ∀ c ∈ d.spelling.toList, Lexeme.isNameChar c = true := by
  rw [← List.all_eq_true]
  cases d <;> decide

end Directive

namespace SpecialObject

theorem ofSpelling?_spelling
    (o : SpecialObject) : ofSpelling? o.spelling = some o := by
  cases o <;> decide

/-- A text is the name of the special object that it is looked up as. -/
theorem ofSpelling?_eq_some_iff
    {text : String} {o : SpecialObject} : ofSpelling? text = some o ↔ o.spelling = text := by
  constructor
  · intro hfound
    simpa using List.find?_some hfound
  · rintro rfl
    exact ofSpelling?_spelling o

theorem isNameChar_of_mem_spelling
    (o : SpecialObject) : ∀ c ∈ o.spelling.toList, Lexeme.isNameChar c = true := by
  rw [← List.all_eq_true]
  cases o <;> decide

end SpecialObject

/-! ## Punctuation marks -/

/-- The mark of a character is the one that is spelled so; the ellipsis has three characters. -/
theorem Lexeme.mark?_eq_some_iff
    {c : Char} {p : Punctuation} :
    Lexeme.mark? c = some p ↔ p ≠ .ellipsis ∧ p.spelling.toList = [c] := by
  constructor
  · intro hmark
    unfold Lexeme.mark? at hmark
    split at hmark <;> cases hmark <;> decide
  · rintro ⟨hne, hspelling⟩
    cases p <;> first | contradiction | (cases hspelling; rfl)

/-! ## Symbol operators -/

namespace Operator

theorem ofSpelling?_spelling
    (op : Operator) : ofSpelling? op.spelling = some op := by
  cases op <;> decide

theorem spelling_injective : Function.Injective spelling := by
  intro op other hspelling
  have hsame : ofSpelling? op.spelling = ofSpelling? other.spelling := by rw [hspelling]
  simpa [ofSpelling?_spelling] using hsame

theorem mem_symbols_iff
    {op : Operator} : op ∈ symbols ↔ op.isSymbol = true := by
  simp [symbols, mem_all]

/-- A character that starts a symbol operator starts no other piece but a comment. -/
theorem exists_spelling_cons
    {op : Operator} (hop : op.isSymbol = true) :
    ∃ first more, op.spelling.toList = first :: more ∧ first ≠ '\'' ∧
      Text.isLineBreak first = false ∧ Text.isSpace first = false ∧ first.isDigit = false ∧
      Lexeme.isNameStart first = false ∧ first ≠ '#' ∧ first ≠ '@' ∧
      Lexeme.mark? first = none ∧ first ≠ '.' := by
  cases op <;> first | contradiction | exact ⟨_, _, rfl, by decide⟩

/-- The longer operator of a list and one found before is in either, and none is longer. -/
theorem of_foldl_longer
    {ops : List Operator} {best : Option Operator} {op : Operator}
    (hfold : ops.foldl longer best = some op) :
    (op ∈ ops ∨ best = some op) ∧ (∀ o ∈ ops, o.spelling.length ≤ op.spelling.length) ∧
      ∀ b ∈ best, b.spelling.length ≤ op.spelling.length := by
  induction ops generalizing best with
  | nil =>
      refine ⟨.inr hfold, by simp, ?_⟩
      intro b hb
      obtain rfl : b = op := Option.some.inj (hb.symm.trans hfold)
      exact Nat.le_refl _
  | cons first ops ih =>
      obtain ⟨hmem, hall, hbest⟩ := ih hfold
      have hfirst : first.spelling.length ≤ op.spelling.length ∧
          ∀ b ∈ best, b.spelling.length ≤ op.spelling.length := by
        unfold longer at hbest
        split at hbest
        · exact ⟨hbest first rfl, by simp⟩
        · split at hbest
          · rename_i b hle
            have hop := hbest first rfl
            refine ⟨hop, fun other hother => ?_⟩
            obtain rfl : b = other := by simpa using hother
            exact Nat.le_trans hle hop
          · rename_i b hlt
            have hop := hbest b rfl
            refine ⟨by omega, fun other hother => ?_⟩
            obtain rfl : b = other := by simpa using hother
            exact hop
      refine ⟨?_, ?_, hfirst.2⟩
      · rcases hmem with hmem | hlonger
        · exact .inl (List.mem_cons_of_mem first hmem)
        · unfold longer at hlonger
          split at hlonger
          · exact .inl (by simp_all)
          · split at hlonger
            · exact .inl (by simp_all)
            · exact .inr hlonger
      · intro o ho
        rcases List.mem_cons.mp ho with rfl | ho
        · exact hfirst.1
        · exact hall o ho

theorem foldl_longer_ne_none
    (ops : List Operator) (best : Option Operator) (h : best ≠ none ∨ ops ≠ []) :
    ops.foldl longer best ≠ none := by
  induction ops generalizing best with
  | nil => simpa using h
  | cons first ops ih =>
      apply ih
      left
      unfold longer
      split
      · simp
      · split <;> simp

/-- The operator stands at the start of the text, and no symbol operator there is longer. -/
def LongestAt (op : Operator) (text : List Char) : Prop :=
  op.isSymbol = true ∧ op.spelling.toList <+: text ∧
    ∀ o : Operator, o.isSymbol = true → o.spelling.toList <+: text →
      o.spelling.length ≤ op.spelling.length

theorem mem_filter_startsText_iff
    {op : Operator} {text : List Char} :
    op ∈ symbols.filter (·.startsText text) ↔
      op.isSymbol = true ∧ op.spelling.toList <+: text := by
  simp [mem_symbols_iff, startsText, List.isPrefixOf_iff_prefix]

theorem LongestAt.eq
    {op other : Operator} {text : List Char} (hop : op.LongestAt text)
    (hother : other.LongestAt text) : op = other := by
  have hlength : op.spelling.toList.length = other.spelling.toList.length := by
    rw [String.length_toList, String.length_toList]
    exact Nat.le_antisymm (hother.2.2 op hop.1 hop.2.1) (hop.2.2 other hother.1 hother.2.1)
  apply spelling_injective
  apply String.toList_inj.mp
  exact (List.prefix_of_prefix_length_le hop.2.1 hother.2.1 (Nat.le_of_eq hlength)).eq_of_length
    hlength

theorem longestAt_of_longestMatch?
    {op : Operator} {text : List Char} (hmatch : longestMatch? text = some op) :
    op.LongestAt text := by
  obtain ⟨hmem, hall, -⟩ := of_foldl_longer hmatch
  obtain ⟨hsymbol, hprefix⟩ := mem_filter_startsText_iff.mp (hmem.resolve_right (by simp))
  refine ⟨hsymbol, hprefix, ?_⟩
  intro o ho hoprefix
  exact hall o (mem_filter_startsText_iff.mpr ⟨ho, hoprefix⟩)

/-- The operator that is found is the longest one. -/
theorem longestMatch?_eq_some_iff
    {op : Operator} {text : List Char} :
    longestMatch? text = some op ↔ op.LongestAt text := by
  constructor
  · exact longestAt_of_longestMatch?
  · intro hop
    have hmem := mem_filter_startsText_iff.mpr ⟨hop.1, hop.2.1⟩
    obtain ⟨found, hfound⟩ := Option.ne_none_iff_exists'.mp
      (foldl_longer_ne_none _ none (.inr (List.ne_nil_of_mem hmem)))
    have hfound : longestMatch? text = some found := hfound
    rw [hfound, (longestAt_of_longestMatch? hfound).eq hop]

/-- No operator is found where none stands. -/
theorem longestMatch?_eq_none_iff
    {text : List Char} :
    longestMatch? text = none ↔
      ∀ op : Operator, op.isSymbol = true → ¬ op.spelling.toList <+: text := by
  constructor
  · intro hnone op hop hprefix
    have hmem := mem_filter_startsText_iff.mpr ⟨hop, hprefix⟩
    exact foldl_longer_ne_none _ none (.inr (List.ne_nil_of_mem hmem)) hnone
  · intro hall
    have hnil : symbols.filter (·.startsText text) = [] := by
      rw [List.eq_nil_iff_forall_not_mem]
      intro op hop
      obtain ⟨hsymbol, hprefix⟩ := mem_filter_startsText_iff.mp hop
      exact hall op hsymbol hprefix
    simp [longestMatch?, hnil]

end Operator

end ExprFront
