import ExprFront.Proofs.Grouping.Faithful
import ExprFront.Proofs.Scope.Partners

/-!
# Comma lists in grouping parentheses

A parenthesis stands in the place of an operand if no operand ends directly
before it, which the tokens from the start of the range on decide. In a phrase
without empty grouping parentheses these parentheses hold one part each unless
some of them hold a comma outside inner brackets, so the tokens alone decide
whether `Phrase.Single` holds. Both directions go by induction on the phrase;
an index is looked up among the parts of a group by `EachSeated`.
-/

namespace ExprFront

/-! ## Operands that end before an index -/

/-- Whether an operand ends directly before an index, for the tokens from `first` on. -/
def heldBefore (tokens : Array Token) (first : Nat) : (index : Nat) → Bool
  | 0 => false
  | index + 1 =>
      decide (first ≤ index) &&
        (kindAt tokens index).any fun k => k.endsOperand (heldBefore tokens first index)

/-- Parentheses in the place of an operand, and a comma in them that stands in no inner
brackets. -/
structure IsCommaList (tokens : Array Token) (first opening comma closing : Nat) : Prop where
  opens : kindAt tokens opening = some (.punctuation .lparen)
  not_held : heldBefore tokens first opening = false
  before_comma : Balanced tokens (fun _ => True) (opening + 1) comma
  is_comma : kindAt tokens comma = some (.punctuation .comma)
  after_comma : Balanced tokens (fun _ => True) (comma + 1) closing
  closes : kindAt tokens closing = some (.punctuation .rparen)

/-- Some parentheses between two indices stand in the place of an operand and hold a comma. -/
def CommaListWithin (tokens : Array Token) (first start stop : Nat) : Prop :=
  ∃ opening comma closing, start ≤ opening ∧ closing < stop ∧
    IsCommaList tokens first opening comma closing

/-- Some parentheses of the range stand in the place of an operand and hold a comma. -/
def HasCommaList (tokens : Array Token) (range : TokenRange) : Prop :=
  CommaListWithin tokens range.start range.start range.stop

variable {tokens : Array Token} {first index start : Nat}

theorem CommaListWithin.mono
    {stop start' stop' : Nat} (h : CommaListWithin tokens first start stop)
    (hstart : start' ≤ start) (hstop : stop ≤ stop') :
    CommaListWithin tokens first start' stop' := by
  obtain ⟨opening, comma, closing, hlow, hhigh, hlist⟩ := h
  exact ⟨opening, comma, closing, by omega, by omega, hlist⟩

theorem heldBefore_self
    (tokens : Array Token) (first : Nat) : heldBefore tokens first first = false := by
  cases first with
  | zero => rfl
  | succ first =>
      have hnot : ¬ first + 1 ≤ first := by omega
      simp [heldBefore, hnot]

theorem heldBefore_succ
    {k : TokenKind} (hfirst : first ≤ index) (hkind : kindAt tokens index = some k) :
    heldBefore tokens first (index + 1) = k.endsOperand (heldBefore tokens first index) := by
  simp [heldBefore, hfirst, hkind]

theorem heldBefore_of_closing
    {b : Bracket} (hfirst : first ≤ index)
    (hkind : kindAt tokens index = some (.punctuation b.closing)) :
    heldBefore tokens first (index + 1) = true := by
  rw [heldBefore_succ hfirst hkind]
  simp [TokenKind.endsOperand, TokenKind.closes_eq_some_iff.mpr rfl]

/-- No operand ends with a mark that closes nothing. -/
theorem heldBefore_of_punctuation
    {mark : Punctuation} (hfirst : first ≤ index)
    (hkind : kindAt tokens index = some (.punctuation mark)) (hcloses : mark.closes = none) :
    heldBefore tokens first (index + 1) = false := by
  rw [heldBefore_succ hfirst hkind]
  simp [TokenKind.endsOperand, TokenKind.isOperand, hcloses]

/-- Behind an operation before an operand, the operand is still to come. -/
theorem heldBefore_of_before
    {k : TokenKind} {op : Operation} (hfirst : first ≤ index)
    (hheld : heldBefore tokens first index = false) (hkind : kindAt tokens index = some k)
    (hbefore : k.before = some op) : heldBefore tokens first (index + 1) = false := by
  obtain ⟨o, rfl, -⟩ := TokenKind.exists_operator_of_before hbefore
  rw [heldBefore_succ hfirst hkind, hheld]
  rfl

/-- Behind an operation between operands, the right operand is still to come. -/
theorem heldBefore_of_between
    {k : TokenKind} {op : Operation} (hfirst : first ≤ index)
    (hkind : kindAt tokens index = some k) (hbetween : k.between = some op) :
    heldBefore tokens first (index + 1) = false := by
  have hafter := TokenKind.after_eq_none_of_between hbetween
  obtain ⟨o, rfl, -⟩ := TokenKind.exists_operator_of_between hbetween
  rw [heldBefore_succ hfirst hkind]
  simp [TokenKind.endsOperand, TokenKind.isOperand, hafter]

/-- Balanced tokens without a comma and a closing bracket leave no comma to be reached. -/
theorem Balanced.ne_comma
    {stop comma : Nat} {b : Bracket} (h : Balanced tokens Phrase.NoComma start stop)
    (hclosing : kindAt tokens stop = some (.punctuation b.closing))
    (hcomma : Balanced tokens (fun _ => True) start comma) :
    kindAt tokens comma ≠ some (.punctuation .comma) := by
  intro hkind
  rcases Nat.lt_trichotomy comma stop with hlt | rfl | hlt
  · obtain ⟨k, hk, -, hfree⟩ := (hcomma.cancel h (Nat.le_of_lt hlt)).exists_first hlt
    rw [hkind] at hk
    cases hk
    exact hfree rfl rfl
  · rw [hkind] at hclosing
    cases b <;> cases hclosing
  · obtain ⟨k, hk, hcloses, -⟩ := (h.cancel hcomma (Nat.le_of_lt hlt)).exists_first hlt
    rw [hclosing] at hk
    cases hk
    rw [TokenKind.closes_eq_some_iff.mpr rfl] at hcloses
    cases hcloses

namespace Phrase

/-- An operand ends where a phrase does. -/
theorem heldBefore_of_spells
    {p : Phrase} (h : p.Spells tokens start) (hfirst : first ≤ start) :
    heldBefore tokens first (start + p.width) = true := by
  induction p generalizing start with
  | leaf kind =>
      obtain ⟨k, hk, hleaf⟩ := exists_of_spells_leaf h
      rw [width, heldBefore_succ hfirst hk]
      simp [TokenKind.endsOperand, NodeKind.isOperand_of_ofToken? hleaf]
  | group b parts _ =>
      have hlast : start + (group b parts).width = start + 1 + partsWidth parts + 1 := by
        simp only [width]
        omega
      rw [hlast]
      exact heldBefore_of_closing (by omega) h.2.2
  | before op operand ih =>
      have hlast : start + (before op operand).width = start + 1 + operand.width := by
        simp only [width]
        omega
      rw [hlast]
      exact ih h.2 (by omega)
  | after operand op ih =>
      obtain ⟨k, hk, hafter⟩ := exists_of_spells_after h
      rw [width, ← Nat.add_assoc, heldBefore_succ (by omega) hk, ih h.1 hfirst]
      simp [TokenKind.endsOperand, hafter]
  | applied callee b parts _ _ =>
      have hlast : start + (applied callee b parts).width =
          start + callee.width + 1 + partsWidth parts + 1 := by
        simp only [width]
        omega
      rw [hlast]
      exact heldBefore_of_closing (by omega) h.2.2.2
  | between left op right _ ih =>
      have hlast : start + (between left op right).width =
          start + left.width + 1 + right.width := by
        simp only [width]
        omega
      rw [hlast]
      exact ih h.2.2 (by omega)

/-! ## Parts of a group -/

/-- Each of several phrases is spelled where no operand has ended, and no parenthesis opens
directly after it. -/
def EachSeated (tokens : Array Token) (first : Nat) : List Phrase → (start : Nat) → Prop
  | [], _ => True
  | p :: ps, start =>
      (p.Spells tokens start ∧ first ≤ start ∧ heldBefore tokens first start = false) ∧
        kindAt tokens (start + p.width) ≠ some (.punctuation .lparen) ∧
        EachSeated tokens first ps (start + p.width + 1)

theorem ne_lparen_of_closing
    {b : Bracket} (h : kindAt tokens index = some (.punctuation b.closing)) :
    kindAt tokens index ≠ some (.punctuation Bracket.paren.opening) :=
  not_opening_of_closing h

/-- The later parts of a group are seated after their commas. -/
theorem SpellsLater.eachSeated
    {b : Bracket} {p : Phrase} {ps : List Phrase} (hp : p.Spells tokens start)
    (hfirst : first ≤ start) (hheld : heldBefore tokens first start = false)
    (h : SpellsLater tokens ps (start + p.width))
    (hclosing : kindAt tokens (start + p.width + laterWidth ps) =
      some (.punctuation b.closing)) :
    EachSeated tokens first (p :: ps) start := by
  induction ps generalizing p start with
  | nil => exact ⟨⟨hp, hfirst, hheld⟩, ne_lparen_of_closing hclosing, trivial⟩
  | cons q qs ih =>
      obtain ⟨hcomma, hq, hrest⟩ := h
      refine ⟨⟨hp, hfirst, hheld⟩, by simp [hcomma], ih hq (by omega) ?_ hrest ?_⟩
      · exact heldBefore_of_punctuation (by omega) hcomma rfl
      · have hlast : start + p.width + laterWidth (q :: qs) =
            start + p.width + 1 + q.width + laterWidth qs := by
          simp only [laterWidth]
          omega
        rw [← hlast]
        exact hclosing

/-- The parts of a bracket group are seated behind the opening mark. -/
theorem eachSeated_of_spells
    {b : Bracket} {parts : List Phrase} (h : (group b parts).Spells tokens start)
    (hfirst : first ≤ start) : EachSeated tokens first parts (start + 1) := by
  obtain ⟨hopening, hparts, hclosing⟩ := h
  cases parts with
  | nil => trivial
  | cons p ps =>
      rw [partsWidth, ← Nat.add_assoc] at hclosing
      refine SpellsLater.eachSeated hparts.1 (by omega) ?_ hparts.2 hclosing
      exact heldBefore_of_punctuation hfirst hopening (by cases b <;> rfl)

/-! ## From phrases to tokens -/

/-- Parentheses in the place of an operand that hold several parts hold a comma. -/
theorem isCommaList_of_spells
    {p q : Phrase} {ps : List Phrase} (h : (group .paren (p :: q :: ps)).Spells tokens start)
    (hheld : heldBefore tokens first start = false) :
    IsCommaList tokens first start (start + 1 + p.width)
      (start + 1 + partsWidth (p :: q :: ps)) := by
  obtain ⟨hopening, hparts, hclosing⟩ := h
  have hbefore : Balanced tokens (fun _ => True) (start + 1) (start + 1 + p.width) :=
    hparts.1.balanced.mono fun _ _ => trivial
  have hthrough := hbefore.trans (.of_kindAt hparts.2.1 rfl rfl trivial)
  have hle : start + 1 + p.width + 1 ≤ start + 1 + partsWidth (p :: q :: ps) := by
    simp only [partsWidth, laterWidth]
    omega
  exact ⟨hopening, hheld, hbefore, hparts.2.1, hthrough.cancel hparts.balanced hle, hclosing⟩

/-- A phrase in the place of an operand that breaks the rule on grouping parentheses has a comma
list, unless some of them are empty. -/
def Lists (tokens : Array Token) (first : Nat) (p : Phrase) : Prop :=
  ∀ start, p.Spells tokens start → first ≤ start → heldBefore tokens first start = false →
    p.Filled → ¬ p.Single → CommaListWithin tokens first start (start + p.width)

theorem commaListWithin_of_parts
    {parts : List Phrase} (hlists : ∀ p ∈ parts, p.Lists tokens first)
    (h : EachSeated tokens first parts start) (hfilled : AllFilled parts)
    (hsingle : ¬ AllSingle parts) :
    CommaListWithin tokens first start (start + laterWidth parts) := by
  induction parts generalizing start with
  | nil => exact absurd trivial hsingle
  | cons p ps ih =>
      obtain ⟨⟨hp, hfirst, hheld⟩, -, hrest⟩ := h
      by_cases hpSingle : p.Single
      · have hps : ¬ AllSingle ps := fun hps => hsingle ⟨hpSingle, hps⟩
        refine (ih (fun q hq => hlists q (List.mem_cons_of_mem p hq)) hrest hfilled.2 hps).mono
          (by omega) ?_
        simp only [laterWidth]
        omega
      · refine (hlists p List.mem_cons_self start hp hfirst hheld hfilled.1 hpSingle).mono
          (Nat.le_refl _) ?_
        simp only [laterWidth]
        omega

/-- The comma list of a part of a group lies within the group. -/
theorem commaListWithin_of_group
    {b : Bracket} {parts : List Phrase} (hlists : ∀ p ∈ parts, p.Lists tokens first)
    (h : (group b parts).Spells tokens start) (hfirst : first ≤ start)
    (hfilled : AllFilled parts) (hsingle : ¬ AllSingle parts) :
    CommaListWithin tokens first start (start + (group b parts).width) := by
  have hle := laterWidth_le_partsWidth parts
  refine (commaListWithin_of_parts hlists (eachSeated_of_spells h hfirst) hfilled hsingle).mono
    (Nat.le_succ start) ?_
  simp only [width]
  omega

theorem lists (tokens : Array Token) (first : Nat) (p : Phrase) : p.Lists tokens first := by
  induction p with
  | leaf kind =>
      intro start _ _ _ _ hsingle
      exact absurd trivial hsingle
  | group b parts ih =>
      intro start h hfirst hheld hfilled hsingle
      by_cases hparts : AllSingle parts
      · -- The group itself breaks the rule, so it is a list of several parts.
        have hb : b = .paren ∧ parts.length ≠ 1 := by
          by_contra hnot
          exact hsingle ⟨fun hb => by_contra fun hlength => hnot ⟨hb, hlength⟩, hparts⟩
        obtain ⟨rfl, hlength⟩ := hb
        match parts with
        | [] => exact absurd rfl (hfilled.1 rfl)
        | [p] => exact absurd rfl hlength
        | p :: q :: ps =>
            refine ⟨start, _, _, Nat.le_refl _, ?_, isCommaList_of_spells h hheld⟩
            simp only [width]
            omega
      · exact commaListWithin_of_group ih h hfirst hfilled.2 hparts
  | before op operand ih =>
      intro start h hfirst hheld hfilled hsingle
      obtain ⟨k, hk, hbefore⟩ := exists_of_spells_before h
      have hoperand := heldBefore_of_before hfirst hheld hk hbefore
      refine (ih (start + 1) h.2 (by omega) hoperand hfilled hsingle).mono (by omega) ?_
      simp only [width]
      omega
  | after operand op ih =>
      intro start h hfirst hheld hfilled hsingle
      refine (ih start h.1 hfirst hheld hfilled hsingle).mono (Nat.le_refl _) ?_
      simp only [width]
      omega
  | applied callee b parts ih ihParts =>
      intro start h hfirst hheld hfilled hsingle
      obtain ⟨hcallee, hgroup⟩ := spells_applied_iff.mp h
      rw [width_applied, ← Nat.add_assoc]
      by_cases hcalleeSingle : callee.Single
      · have hparts : ¬ AllSingle parts := fun hparts => hsingle ⟨hcalleeSingle, hparts⟩
        exact (commaListWithin_of_group ihParts hgroup (by omega) hfilled.2 hparts).mono
          (by omega) (Nat.le_refl _)
      · exact (ih start hcallee hfirst hheld hfilled.1 hcalleeSingle).mono (Nat.le_refl _)
          (by omega)
  | between left op right ihLeft ihRight =>
      intro start h hfirst hheld hfilled hsingle
      by_cases hleft : left.Single
      · obtain ⟨k, hk, hbetween⟩ := exists_of_spells_between h
        have hright : ¬ right.Single := fun hright => hsingle ⟨hleft, hright⟩
        have hrightHeld := heldBefore_of_between (by omega : first ≤ start + left.width) hk hbetween
        refine (ihRight _ h.2.2 (by omega) hrightHeld hfilled.2 hright).mono (by omega) ?_
        simp only [width]
        omega
      · refine (ihLeft start h.1 hfirst hheld hfilled.1 hleft).mono (Nat.le_refl _) ?_
        simp only [width]
        omega

/-! ## From tokens to phrases -/

/-- A comma list that opens within some parts opens within one of them. -/
theorem exists_part_of_isCommaList
    {parts : List Phrase} {opening comma closing : Nat}
    (hlist : IsCommaList tokens first opening comma closing)
    (h : EachSeated tokens first parts start) (hlow : start ≤ opening)
    (hhigh : opening < start + laterWidth parts) :
    ∃ p ∈ parts, ∃ place, p.Spells tokens place ∧ first ≤ place ∧ place ≤ opening ∧
      opening < place + p.width := by
  induction parts generalizing start with
  | nil =>
      simp only [laterWidth] at hhigh
      omega
  | cons p ps ih =>
      obtain ⟨⟨hp, hfirst, -⟩, hnext, hrest⟩ := h
      rcases Nat.lt_trichotomy opening (start + p.width) with hlt | rfl | hlt
      · exact ⟨p, List.mem_cons_self, start, hp, hfirst, hlow, hlt⟩
      · exact absurd hlist.opens hnext
      · simp only [laterWidth] at hhigh
        obtain ⟨q, hq, hplace⟩ := ih hrest hlt (by omega)
        exact ⟨q, List.mem_cons_of_mem p hq, hplace⟩

/-- A comma list that opens within a bracket group but not with it opens within a part. -/
theorem exists_part_of_group
    {b : Bracket} {parts : List Phrase} {opening comma closing : Nat}
    (hlist : IsCommaList tokens first opening comma closing)
    (h : (group b parts).Spells tokens start) (hfirst : first ≤ start) (hlow : start < opening)
    (hhigh : opening < start + (group b parts).width) :
    ∃ p ∈ parts, ∃ place, p.Spells tokens place ∧ first ≤ place ∧ place ≤ opening ∧
      opening < place + p.width := by
  refine exists_part_of_isCommaList hlist (eachSeated_of_spells h hfirst) hlow ?_
  have hlast : opening ≠ start + 1 + partsWidth parts := by
    rintro rfl
    exact ne_lparen_of_closing h.2.2 hlist.opens
  have hle := partsWidth_le_laterWidth parts
  simp only [width] at hhigh
  omega

/-- A comma list that opens within a phrase breaks its rule on grouping parentheses. -/
theorem not_single_of_isCommaList
    {p : Phrase} {opening comma closing : Nat}
    (hlist : IsCommaList tokens first opening comma closing) (h : p.Spells tokens start)
    (hfirst : first ≤ start) (hlow : start ≤ opening) (hhigh : opening < start + p.width) :
    ¬ p.Single := by
  intro hsingle
  have hopening := hlist.opens
  induction p generalizing start with
  | leaf kind =>
      obtain ⟨k, hk, hleaf⟩ := exists_of_spells_leaf h
      obtain rfl : opening = start := by
        simp only [width] at hhigh
        omega
      cases hk.symm.trans hopening
      cases hleaf
  | group b parts ih =>
      rcases Nat.eq_or_lt_of_le hlow with rfl | hlt
      · obtain rfl : b = .paren := bracket_eq_of_opening h.1 hopening
        obtain ⟨p, rfl⟩ := List.length_eq_one_iff.mp (hsingle.1 rfl)
        exact h.2.1.1.balanced.ne_comma h.2.2 hlist.before_comma hlist.is_comma
      · obtain ⟨p, hp, place, hplace⟩ := exists_part_of_group hlist h hfirst hlt hhigh
        exact ih p hp hplace.1 hplace.2.1 hplace.2.2.1 hplace.2.2.2
          (allSingle_iff.mp hsingle.2 p hp)
  | before op operand ih =>
      rcases Nat.eq_or_lt_of_le hlow with rfl | hlt
      · obtain ⟨k, hk, hbefore⟩ := exists_of_spells_before h
        cases hk.symm.trans hopening
        cases hbefore
      · simp only [width] at hhigh
        exact ih h.2 (by omega) hlt (by omega) hsingle
  | after operand op ih =>
      rcases Nat.lt_or_ge opening (start + operand.width) with hlt | hge
      · exact ih h.1 hfirst hlow hlt hsingle
      · obtain rfl : opening = start + operand.width := by
          simp only [width] at hhigh
          omega
        obtain ⟨k, hk, hafter⟩ := exists_of_spells_after h
        cases hk.symm.trans hopening
        cases hafter
  | applied callee b parts ih ihParts =>
      obtain ⟨hcallee, hgroup⟩ := spells_applied_iff.mp h
      rw [width_applied] at hhigh
      rcases Nat.lt_trichotomy opening (start + callee.width) with hlt | rfl | hlt
      · exact ih hcallee hfirst hlow hlt hsingle.1
      · -- The group stands after an operand.
        have hheld := hlist.not_held
        rw [heldBefore_of_spells hcallee hfirst] at hheld
        cases hheld
      · obtain ⟨p, hp, place, hplace⟩ :=
          exists_part_of_group hlist hgroup (by omega) hlt (by omega)
        exact ihParts p hp hplace.1 hplace.2.1 hplace.2.2.1 hplace.2.2.2
          (allSingle_iff.mp hsingle.2 p hp)
  | between left op right ihLeft ihRight =>
      rcases Nat.lt_trichotomy opening (start + left.width) with hlt | rfl | hlt
      · exact ihLeft h.1 hfirst hlow hlt hsingle.1
      · obtain ⟨k, hk, hbetween⟩ := exists_of_spells_between h
        cases hk.symm.trans hopening
        cases hbetween
      · simp only [width] at hhigh
        exact ihRight h.2.2 (by omega) hlt (by omega) hsingle.2

/-- In a phrase without empty grouping parentheses, these hold one part each exactly if none of
them holds a comma. -/
theorem Covers.single_iff_not_hasCommaList
    {p : Phrase} {range : TokenRange} (h : p.Covers tokens range) (hfilled : p.Filled) :
    p.Single ↔ ¬ HasCommaList tokens range := by
  have hstop := h.stop_eq
  constructor
  · rintro hsingle ⟨opening, comma, closing, hlow, hhigh, hlist⟩
    have hle := hlist.before_comma.le
    have hle' := hlist.after_comma.le
    exact not_single_of_isCommaList hlist h.spells (Nat.le_refl _) hlow (by omega) hsingle
  · intro hnone
    by_contra hsingle
    apply hnone
    unfold HasCommaList
    rw [← hstop]
    exact p.lists tokens range.start range.start h.spells (Nat.le_refl _)
      (heldBefore_self tokens range.start) hfilled hsingle

end Phrase

end ExprFront
