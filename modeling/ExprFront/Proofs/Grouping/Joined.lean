import ExprFront.Proofs.Grouping.Wrapped
import ExprFront.Proofs.Token.Joined

/-!
# The text of a grouped expression

The literals of a grouped expression are put together without blanks. Since
every application stands in parentheses, an operator has an operand or a bracket
on either side and an operand an operator, a bracket or a comma, so the text is
cut into the same literals again. There is one exception: a plain number as the
left operand of a member access joins with the point and a digit after it to a
real number.
-/

namespace ExprFront

open Grouping Lexeme

/-- A plain number that is no member itself stands before a point and a literal that starts with a
digit; put together they are read as a real number. -/
def HidesReal (tokens : Array Token) (range : TokenRange) : Prop :=
  ∃ i < range.stop, range.start ≤ i ∧ i + 2 < range.stop ∧ kindAt tokens i = some .number ∧
    kindAt tokens (i + 1) = some (.operator .dot) ∧
    tokens[i + 2]?.any (·.literal.toList.head?.any Char.isDigit) = true ∧
    (range.start < i → kindAt tokens (i - 1) ≠ some (.operator .dot))

instance (tokens : Array Token) (range : TokenRange) : Decidable (HidesReal tokens range) :=
  show Decidable (∃ i < range.stop, _) from inferInstance

namespace Grouping

variable {tokens : Array Token}

/-- The pieces of entries. -/
def pieces (entries : List GroupedToken) : List Piece := entries.map (·.token.piece)

@[simp] theorem pieces_append
    (front back : List GroupedToken) : pieces (front ++ back) = pieces front ++ pieces back :=
  List.map_append

theorem piece_insertedAt
    (t : Token) (p : Punctuation) :
    (t.insertedAt p).piece = ⟨.punctuation p, p.spelling.toList⟩ := rfl

/-- Enclosed entries have a piece for each parenthesis. -/
theorem pieces_enclose
    {anchor : Nat} (hanchor : anchor < tokens.size) {entries : List GroupedToken}
    (hentries : entries ≠ []) :
    pieces (enclose tokens anchor entries) =
      ⟨.punctuation .lparen, ['(']⟩ :: (pieces entries ++ [⟨.punctuation .rparen, [')']⟩]) := by
  obtain ⟨first, rest, rfl⟩ := List.exists_cons_of_ne_nil hentries
  simp only [enclose, List.head?_cons, Array.getElem?_eq_getElem hanchor, pieces, List.map_cons,
    List.map_append, List.cons_append, List.map_nil, piece_insertedAt]
  rfl

/-- Enclosed entries may be put together if they may before a parenthesis. -/
theorem joins_enclose
    {anchor : Nat} (hanchor : anchor < tokens.size) {entries : List GroupedToken}
    (hentries : entries ≠ []) {rest : List Char} (h : Joins (pieces entries) (')' :: rest)) :
    Joins (pieces (enclose tokens anchor entries)) rest := by
  rw [pieces_enclose hanchor hentries, Joins, joins_append_iff]
  exact ⟨.mark (p := .lparen) (by decide), h, .mark (p := .rparen) (by decide), trivial⟩

/-! ## Copied tokens -/

/-- The tokens are those of a text. -/
def AllLexed (tokens : Array Token) : Prop := ∀ t ∈ tokens, t.kind ≠ .eof → t.IsLexed

theorem AllLexed.exists_piece
    (h : AllLexed tokens) {index : Nat} {k : TokenKind} (hk : kindAt tokens index = some k)
    (hkind : k ≠ .eof) :
    ∃ t rest, tokens[index]? = some t ∧ IsPiece k t.literal.toList rest ∧
      pieces (copy tokens index) = [⟨k, t.literal.toList⟩] := by
  unfold kindAt at hk
  obtain ⟨t, ht, rfl⟩ := Option.map_eq_some_iff.mp hk
  obtain ⟨rest, hpiece⟩ := h t (Array.mem_of_getElem? ht) hkind
  exact ⟨t, rest, ht, hpiece, by rw [copy_of_getElem? ht]; rfl⟩

theorem AllLexed.pieces_mark
    (h : AllLexed tokens) {index : Nat} {p : Punctuation}
    (hk : kindAt tokens index = some (.punctuation p)) (hp : p ≠ .ellipsis) :
    pieces (copy tokens index) = [⟨.punctuation p, p.spelling.toList⟩] := by
  obtain ⟨t, rest, -, hpiece, hpieces⟩ := h.exists_piece hk (by simp)
  rw [hpieces, (hpiece.mark_before hp).1]

theorem AllLexed.pieces_operator
    (h : AllLexed tokens) {index : Nat} {op : Operator}
    (hk : kindAt tokens index = some (.operator op)) :
    pieces (copy tokens index) = [⟨.operator op, op.spelling.toList⟩] ∧
      ∀ rest, SignFree rest → IsPiece (.operator op) op.spelling.toList rest := by
  obtain ⟨t, rest, -, hpiece, hpieces⟩ := h.exists_piece hk (by simp)
  have hempty : SignFree [] := by simp [SignFree]
  have hspelling := (hpiece.operator_before hempty).1
  rw [hspelling] at hpiece hpieces
  exact ⟨hpieces, fun rest' hsign => (hpiece.operator_before hsign).2⟩

end Grouping

theorem Bracket.opening_ne_ellipsis (b : Bracket) : b.opening ≠ .ellipsis := by
  cases b <;> decide

theorem Bracket.closing_ne_ellipsis (b : Bracket) : b.closing ≠ .ellipsis := by
  cases b <;> decide

namespace Phrase

variable {tokens : Array Token} {range : TokenRange} {start : Nat} {rest : List Char}

/-! ## First characters -/

/-- An application stands between parentheses. -/
theorem exists_enclose
    {p : Phrase} (h : p.Spells tokens start) :
    (∃ kind, p = leaf kind) ∨ (∃ b parts, p = group b parts) ∨
      ∃ anchor entries, p.grouped tokens start = enclose tokens anchor entries ∧
        anchor < tokens.size ∧ entries ≠ [] := by
  cases p with
  | leaf kind => exact .inl ⟨kind, rfl⟩
  | group b parts => exact .inr (.inl ⟨b, parts, rfl⟩)
  | before op operand =>
      obtain ⟨k, hk, -⟩ := exists_of_spells_before h
      have hsize := lt_size_of_kindAt hk
      refine .inr (.inr ⟨_, _, by rw [grouped], hsize, ?_⟩)
      simp [copy_ne_nil hsize]
  | after operand op =>
      obtain ⟨k, hk, -⟩ := exists_of_spells_after h
      have hsize := lt_size_of_kindAt hk
      refine .inr (.inr ⟨_, _, by rw [grouped], hsize, ?_⟩)
      simp [copy_ne_nil hsize]
  | applied callee b parts =>
      obtain ⟨-, -, -, hclosing⟩ := h
      have hsize := lt_size_of_kindAt hclosing
      refine .inr (.inr ⟨_, _, by rw [grouped], hsize, ?_⟩)
      simp [copy_ne_nil hsize]
  | between left op right =>
      obtain ⟨k, hk, -⟩ := exists_of_spells_between h
      have hsize := lt_size_of_kindAt hk
      refine .inr (.inr ⟨_, _, by rw [grouped], hsize, ?_⟩)
      simp [copy_ne_nil hsize]

/-- The text of a grouped phrase starts with the first character of its first token, or with a
bracket. -/
theorem first_grouped
    (hlexed : AllLexed tokens) {p : Phrase} (h : p.Spells tokens start) :
    ∃ c more, joined (pieces (p.grouped tokens start)) = c :: more ∧
      ((∃ t, tokens[start]? = some t ∧ t.literal.toList.head? = some c ∧ StartsOperand c) ∨
        ∃ mark : Punctuation, mark ≠ .ellipsis ∧ mark.spelling.toList = [c]) := by
  rcases exists_enclose h with ⟨kind, rfl⟩ | ⟨b, parts, rfl⟩ |
    ⟨anchor, entries, hgrouped, hanchor, hentries⟩
  · obtain ⟨k, hk, hleaf⟩ := exists_of_spells_leaf h
    have hoperand := NodeKind.isOperand_of_ofToken? hleaf
    obtain ⟨t, rest, ht, hpiece, hpieces⟩ := hlexed.exists_piece hk (by rintro rfl; cases hoperand)
    obtain ⟨c, more, hliteral, hc⟩ := hpiece.exists_cons_of_operand hoperand
    refine ⟨c, more, ?_, .inl ⟨t, ht, by simp [hliteral], hc⟩⟩
    rw [grouped, hpieces]
    simp [hliteral]
  · obtain ⟨hopening, -, -⟩ := h
    obtain ⟨c, hc⟩ : ∃ c, b.opening.spelling.toList = [c] := by
      cases b <;> exact ⟨_, rfl⟩
    rw [grouped, pieces_append, pieces_append,
      hlexed.pieces_mark hopening b.opening_ne_ellipsis, hc]
    exact ⟨c, _, rfl, .inr ⟨b.opening, b.opening_ne_ellipsis, hc⟩⟩
  · rw [hgrouped, pieces_enclose hanchor hentries]
    exact ⟨'(', _, rfl, .inr ⟨.lparen, by decide, rfl⟩⟩

/-- Before a grouped phrase any operator may stand. -/
theorem signFree_grouped
    (hlexed : AllLexed tokens) {p : Phrase} (h : p.Spells tokens start) (rest : List Char) :
    SignFree (joined (pieces (p.grouped tokens start)) ++ rest) := by
  obtain ⟨c, more, htext, ⟨-, -, -, hc⟩ | ⟨mark, hmark, hc⟩⟩ := first_grouped hlexed h
  · rw [htext]
    exact signFree_of_startsOperand hc _
  · rw [htext, ← List.singleton_append, ← hc, List.append_assoc]
    exact signFree_mark hmark _

/-- If the text of a grouped phrase starts with a digit, the literal of its first token does. -/
theorem head_isDigit_of_grouped
    (hlexed : AllLexed tokens) {p : Phrase} (h : p.Spells tokens start) {d : Char}
    {more : List Char} (heq : joined (pieces (p.grouped tokens start)) ++ rest = d :: more)
    (hd : d.isDigit = true) :
    tokens[start]?.any (·.literal.toList.head?.any Char.isDigit) = true := by
  obtain ⟨c, tail, htext, hc⟩ := first_grouped hlexed h
  rw [htext, List.cons_append] at heq
  obtain ⟨rfl, -⟩ := List.cons.inj heq
  rcases hc with ⟨t, ht, hhead, -⟩ | ⟨mark, hmark, hspelling⟩
  · simp [ht, hhead, hd]
  · have hname : isNameChar c = false := (endsOperand_mark hmark []).name c (by simp [hspelling])
    simp [isNameChar, Char.isAlphanum, hd] at hname

/-! ## Places of phrases -/

/-- A phrase lies in a range. After a point, that is, as a member, it is neither an operation
between operands nor one after an operand. -/
structure Lies (tokens : Array Token) (range : TokenRange) (p : Phrase) (start : Nat) : Prop where
  spells : p.Spells tokens start
  ordered : p.Ordered
  start_le : range.start ≤ start
  stop_le : start + p.width ≤ range.stop
  after_dot : range.start < start → kindAt tokens (start - 1) = some (.operator .dot) →
    p.joint? = none ∧ p.isAfter = false

/-- Each of several phrases lies in the range, one token after the one before it. -/
def AllLie (tokens : Array Token) (range : TokenRange) : List Phrase → (start : Nat) → Prop
  | [], _ => True
  | p :: ps, start => p.Lies tokens range start ∧ AllLie tokens range ps (start + p.width + 1)

theorem Lies.before
    {op : Operation} {operand : Phrase} (h : (before op operand).Lies tokens range start) :
    operand.Lies tokens range (start + 1) := by
  obtain ⟨k, hk, hbefore⟩ := exists_of_spells_before h.spells
  have hstop := h.stop_le
  have hstart := h.start_le
  simp only [width] at hstop
  refine ⟨h.spells.2, h.ordered.2, by omega, by omega, fun _ hdot => ?_⟩
  cases hk.symm.trans hdot
  cases hbefore

theorem Lies.after
    {operand : Phrase} {op : Operation} (h : (after operand op).Lies tokens range start) :
    operand.Lies tokens range start := by
  have hstop := h.stop_le
  simp only [width] at hstop
  refine ⟨h.spells.1, h.ordered.2, h.start_le, by omega, fun hlt hdot => ?_⟩
  cases (h.after_dot hlt hdot).2

theorem Lies.callee
    {callee : Phrase} {b : Bracket} {parts : List Phrase}
    (h : (applied callee b parts).Lies tokens range start) : callee.Lies tokens range start := by
  have hstop := h.stop_le
  simp only [width] at hstop
  refine ⟨h.spells.1, h.ordered.2.1, h.start_le, by omega, fun hlt hdot => ?_⟩
  cases (h.after_dot hlt hdot).2

theorem Lies.left
    {left : Phrase} {op : Operation} {right : Phrase}
    (h : (between left op right).Lies tokens range start) : left.Lies tokens range start := by
  obtain ⟨-, -, -, hordered, -⟩ := h.ordered
  have hstop := h.stop_le
  simp only [width] at hstop
  refine ⟨h.spells.1, hordered, h.start_le, by omega, fun hlt hdot => ?_⟩
  cases (h.after_dot hlt hdot).1

/-- Nothing binds more tightly than member access. -/
theorem RightOf.of_memberAccess
    {p : Phrase} (h : p.RightOf .memberAccess) : p.joint? = none ∧ p.isAfter = false := by
  refine ⟨?_, h.2 rfl⟩
  cases hjoint : p.joint? with
  | none => rfl
  | some inner =>
      have hle := inner.priority_le_memberAccessPriority
      rcases h.1 inner hjoint with hlt | ⟨heq, hright⟩
      · exact absurd hlt (Nat.not_lt.mpr hle)
      · have hcontra := Operation.associativity_eq_right_of_priority_eq heq hright
        cases hcontra

theorem Lies.right
    {left : Phrase} {op : Operation} {right : Phrase}
    (h : (between left op right).Lies tokens range start) :
    right.Lies tokens range (start + left.width + 1) := by
  obtain ⟨k, hk, hbetween⟩ := exists_of_spells_between h.spells
  obtain ⟨-, -, hright, -, hordered⟩ := h.ordered
  have hstop := h.stop_le
  have hstart := h.start_le
  simp only [width] at hstop
  refine ⟨h.spells.2.2, hordered, by omega, by omega, fun _ hdot => ?_⟩
  cases hk.symm.trans hdot
  cases hbetween
  exact hright.of_memberAccess

theorem allLie_later
    {parts : List Phrase} (h : SpellsLater tokens parts start) (hordered : AllOrdered parts)
    (hstart : range.start ≤ start) (hstop : start + laterWidth parts ≤ range.stop) :
    AllLie tokens range parts (start + 1) := by
  induction parts generalizing start with
  | nil => trivial
  | cons p ps ih =>
      obtain ⟨hcomma, hp, hps⟩ := h
      simp only [laterWidth] at hstop
      refine ⟨⟨hp, hordered.1, by omega, by omega, fun _ hdot => ?_⟩,
        ih hps hordered.2 (by omega) (by omega)⟩
      cases hcomma.symm.trans hdot

theorem allLie_parts
    {b : Bracket} {parts : List Phrase} (h : (group b parts).Spells tokens start)
    (hordered : AllOrdered parts) (hstart : range.start ≤ start)
    (hstop : start + (group b parts).width ≤ range.stop) :
    AllLie tokens range parts (start + 1) := by
  obtain ⟨hopening, hinner, -⟩ := h
  simp only [width] at hstop
  cases parts with
  | nil => trivial
  | cons p ps =>
      simp only [partsWidth] at hstop
      refine ⟨⟨hinner.1, hordered.1, by omega, by omega, fun _ hdot => ?_⟩,
        allLie_later hinner.2 hordered.2 (by omega) (by omega)⟩
      cases hopening.symm.trans hdot

/-! ## Literals put together -/

/-- The phrase may end before a text: brackets always may, a single token if the text does not go
on with it. -/
def EndsAt : Phrase → (rest : List Char) → Prop
  | leaf kind, rest => EndsBefore isNameChar rest ∧ (kind = .number → PointFree rest)
  | _, _ => True

theorem endsAt_of_endsOperand
    (p : Phrase) (h : EndsOperand rest) : p.EndsAt rest := by
  cases p with
  | leaf kind => exact ⟨h.name, fun _ => h.point⟩
  | group | before | after | applied | between => trivial

theorem endsAt_paren
    (p : Phrase) (rest : List Char) : p.EndsAt (')' :: rest) :=
  p.endsAt_of_endsOperand (endsOperand_mark (p := .rparen) (by decide) rest)

/-- The grouped phrase may be put together wherever it lies and may end. -/
def CanJoin (tokens : Array Token) (range : TokenRange) (p : Phrase) : Prop :=
  ∀ start rest, p.Lies tokens range start → p.EndsAt rest →
    Joins (pieces (p.grouped tokens start)) rest

theorem joins_leaf
    (hlexed : AllLexed tokens) {kind : NodeKind} (h : (leaf kind).Spells tokens start)
    (hrest : (leaf kind).EndsAt rest) : Joins (pieces ((leaf kind).grouped tokens start)) rest := by
  obtain ⟨k, hk, hleaf⟩ := exists_of_spells_leaf h
  have hoperand := NodeKind.isOperand_of_ofToken? hleaf
  obtain ⟨t, other, -, hpiece, hpieces⟩ := hlexed.exists_piece hk (by rintro rfl; cases hoperand)
  rw [grouped, hpieces]
  refine ⟨hpiece.operand_before hoperand hrest.1 fun hnumber => hrest.2 ?_, trivial⟩
  subst hnumber
  cases hleaf
  rfl

theorem joins_later
    (hlexed : AllLexed tokens) {parts : List Phrase}
    (hparts : ∀ p ∈ parts, p.CanJoin tokens range) (hrest : EndsOperand rest)
    (h : SpellsLater tokens parts start) (hlie : AllLie tokens range parts (start + 1)) :
    Joins (pieces (groupedLater tokens parts start)) rest ∧
      EndsOperand (joined (pieces (groupedLater tokens parts start)) ++ rest) := by
  induction parts generalizing start with
  | nil => exact ⟨trivial, hrest⟩
  | cons p ps ih =>
      obtain ⟨hcomma, -, hps⟩ := h
      obtain ⟨hfirst, hmore⟩ := hlie
      obtain ⟨hjoins, hends⟩ := ih (fun q hq => hparts q (List.mem_cons_of_mem p hq)) hps hmore
      have hpiece := hlexed.pieces_mark hcomma (by decide)
      rw [groupedLater, pieces_append, pieces_append, hpiece]
      constructor
      · rw [List.singleton_append, Joins, joins_append_iff]
        exact ⟨.mark (by decide),
          hparts p List.mem_cons_self _ _ hfirst (p.endsAt_of_endsOperand hends), hjoins⟩
      · exact endsOperand_mark (p := .comma) (by decide) _

/-- A copied bracket group may stand before any text. -/
theorem joins_group
    (hlexed : AllLexed tokens) {b : Bracket} {parts : List Phrase}
    (hparts : ∀ p ∈ parts, p.CanJoin tokens range)
    (h : (group b parts).Spells tokens start) (hlie : AllLie tokens range parts (start + 1))
    (rest : List Char) :
    Joins (pieces ((group b parts).grouped tokens start)) rest ∧
      EndsOperand (joined (pieces ((group b parts).grouped tokens start)) ++ rest) := by
  obtain ⟨hopening, hinner, hclosing⟩ := h
  have hopen := hlexed.pieces_mark hopening b.opening_ne_ellipsis
  have hclose := hlexed.pieces_mark hclosing b.closing_ne_ellipsis
  have hends : EndsOperand (b.closing.spelling.toList ++ rest) :=
    endsOperand_mark b.closing_ne_ellipsis rest
  have hmiddle : Joins (pieces (groupedParts tokens parts (start + 1)))
      (b.closing.spelling.toList ++ rest) := by
    cases parts with
    | nil => trivial
    | cons p ps =>
        obtain ⟨hfirst, hmore⟩ := hlie
        obtain ⟨hjoins, hnext⟩ := joins_later hlexed
          (fun q hq => hparts q (List.mem_cons_of_mem p hq)) hends hinner.2 hmore
        rw [groupedParts, pieces_append, joins_append_iff]
        exact ⟨hparts p List.mem_cons_self _ _ hfirst (p.endsAt_of_endsOperand hnext), hjoins⟩
  rw [grouped, pieces_append, pieces_append, hopen, hclose]
  constructor
  · rw [List.append_assoc, List.singleton_append, Joins, joins_append_iff]
    refine ⟨.mark b.opening_ne_ellipsis, ?_, .mark b.closing_ne_ellipsis, trivial⟩
    simpa using hmiddle
  · rw [List.append_assoc, joined_append, List.append_assoc]
    simpa using endsOperand_mark b.opening_ne_ellipsis _

/-- A plain number may stand before the point of a member access that hides no real number. -/
theorem endsAt_left
    (hlexed : AllLexed tokens) (hreal : ¬ HidesReal tokens range) {left : Phrase}
    {op : Operation} {right : Phrase} (h : (between left op right).Lies tokens range start)
    {o : Operator} (hk : kindAt tokens (start + left.width) = some (.operator o))
    (rest : List Char) :
    left.EndsAt (o.spelling.toList ++
      (joined (pieces (right.grouped tokens (start + left.width + 1))) ++ rest)) := by
  by_cases ho : o = .dot
  -- Only a number takes up a point, and it is a real number then only if a digit comes next.
  · subst ho
    cases left with
    | leaf kind =>
        refine ⟨endsBefore_operator .dot _, ?_⟩
        rintro rfl d more heq
        by_contra hdigit
        obtain ⟨k, hkind, hleaf⟩ := exists_of_spells_leaf h.spells.1
        have hhead := head_isDigit_of_grouped hlexed h.spells.2.2 (List.cons.inj heq).2
          (by simpa using hdigit)
        have hnumber : k = .number := by
          cases k <;> cases hleaf
          rfl
        have hstop := h.stop_le
        have hpos := right.width_pos
        simp only [width] at hstop
        refine hreal ⟨start, by omega, h.start_le, by omega, by rw [hkind, hnumber], hk, hhead, ?_⟩
        intro hlt hdot
        cases (h.after_dot hlt hdot).1
    | group | before | after | applied | between => trivial
  · exact left.endsAt_of_endsOperand (endsOperand_operator ho _)

/-- The literals of a grouped phrase may be put together, unless they hide a real number. -/
theorem canJoin
    (hlexed : AllLexed tokens) (hreal : ¬ HidesReal tokens range) (p : Phrase) :
    p.CanJoin tokens range := by
  induction p with
  | leaf kind =>
      intro start rest h hrest
      exact joins_leaf hlexed h.spells hrest
  | group b parts ih =>
      intro start rest h _
      exact (joins_group hlexed ih h.spells
        (allLie_parts h.spells h.ordered h.start_le h.stop_le) rest).1
  | before op operand ih =>
      intro start rest h _
      obtain ⟨k, hk, hbefore⟩ := exists_of_spells_before h.spells
      obtain ⟨o, rfl, -⟩ := TokenKind.exists_operator_of_before hbefore
      have hsize := lt_size_of_kindAt hk
      obtain ⟨hpiece, hsign⟩ := hlexed.pieces_operator hk
      rw [grouped]
      refine joins_enclose hsize (by simp [copy_ne_nil hsize]) ?_
      rw [pieces_append, hpiece]
      exact ⟨hsign _ (signFree_grouped hlexed h.before.spells _),
        ih _ _ h.before (operand.endsAt_paren rest)⟩
  | after operand op ih =>
      intro start rest h _
      obtain ⟨k, hk, hafter⟩ := exists_of_spells_after h.spells
      obtain ⟨o, rfl, ho⟩ := TokenKind.exists_operator_of_after hafter
      have hsize := lt_size_of_kindAt hk
      obtain ⟨hpiece, hsign⟩ := hlexed.pieces_operator hk
      have hdot : o ≠ .dot := by
        rintro rfl
        cases ho
      rw [grouped]
      refine joins_enclose hsize (by simp [copy_ne_nil hsize]) ?_
      rw [pieces_append, hpiece, joins_append_iff]
      refine ⟨ih _ _ h.after (operand.endsAt_of_endsOperand ?_),
        hsign _ (signFree_mark (p := .rparen) (by decide) rest), trivial⟩
      simpa using endsOperand_operator hdot (')' :: rest)
  | applied callee b parts ihCallee ihParts =>
      intro start rest h _
      obtain ⟨hcallee, hgroup⟩ := spells_applied_iff.mp h.spells
      have hclosing := lt_size_of_kindAt hgroup.2.2
      have hstart := h.start_le
      have hstop := h.stop_le
      rw [width_applied, ← Nat.add_assoc] at hstop
      obtain ⟨hjoins, hends⟩ := joins_group hlexed ihParts hgroup
        (allLie_parts hgroup h.ordered.2.2 (by omega) hstop) (')' :: rest)
      rw [grouped]
      refine joins_enclose hclosing (by simp [copy_ne_nil hclosing]) ?_
      rw [pieces_append, joins_append_iff]
      exact ⟨ihCallee _ _ h.callee (callee.endsAt_of_endsOperand hends), hjoins⟩
  | between left op right ihLeft ihRight =>
      intro start rest h _
      obtain ⟨k, hk, hbetween⟩ := exists_of_spells_between h.spells
      obtain ⟨o, rfl, -⟩ := TokenKind.exists_operator_of_between hbetween
      have hsize := lt_size_of_kindAt hk
      obtain ⟨hpiece, hsign⟩ := hlexed.pieces_operator hk
      rw [grouped]
      refine joins_enclose hsize (by simp [copy_ne_nil hsize]) ?_
      rw [pieces_append, pieces_append, hpiece, List.append_assoc, joins_append_iff]
      refine ⟨ihLeft _ _ h.left ?_, hsign _ (signFree_grouped hlexed h.right.spells _),
        ihRight _ _ h.right (right.endsAt_paren rest)⟩
      simpa using endsAt_left hlexed hreal h hk (')' :: rest)

end Phrase

/-! ## Lines -/

theorem Token.isInline_insertedAt
    (t : Token) (mark : Punctuation) : (t.insertedAt mark).IsInline := by
  refine ⟨rfl, ?_⟩
  change '\n' ∉ mark.spelling.toList
  cases mark <;> decide

/-- The tokens of a text that are grouped stay on one line. -/
theorem Phrase.isInline_of_mem_grouped
    {source : String} {tokens : Array Token} (h : lex source = .ok tokens) {p : Phrase}
    {start : Nat} {e : GroupedToken} (he : e ∈ p.grouped tokens start) : e.token.IsInline := by
  rcases p.stems_of_mem_grouped start e he with ⟨index, -, ht⟩ | ⟨-, anchor, mark, -, htoken⟩
  · exact isInline_of_lex h (Array.mem_of_getElem? ht)
  · rw [htoken]
    exact Token.isInline_insertedAt anchor mark

theorem Grouped.toList_text
    (g : Grouped) : g.text.toList = joined (pieces g.entries.toList) := by
  rw [Grouped.text, String.toList_join, List.flatMap_map, joined, pieces, List.flatMap_map]
  rfl

end ExprFront
