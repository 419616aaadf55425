import ExprFront.Proofs.Phrase.Basic
import Mathlib.Data.List.Forall2

/-!
# Bracket groups of phrases

The tokens of a phrase are balanced and have no comma outside brackets. So the
scope of a bracket group that is spelled at an index is the group, and its parts
are the parts of the group.
-/

namespace ExprFront

namespace Phrase

variable {tokens : Array Token}

/-! ## Spelled tokens -/

theorem exists_of_spells_leaf
    {kind : NodeKind} {start : Nat} (h : (leaf kind).Spells tokens start) :
    ∃ k, kindAt tokens start = some k ∧ NodeKind.ofToken? k = some kind := by
  simpa [Spells, Option.bind_eq_some_iff] using h

theorem exists_of_spells_before
    {op : Operation} {operand : Phrase} {start : Nat}
    (h : (before op operand).Spells tokens start) :
    ∃ k, kindAt tokens start = some k ∧ k.before = some op := by
  simpa [Option.bind_eq_some_iff] using h.1

theorem exists_of_spells_after
    {op : Operation} {operand : Phrase} {start : Nat}
    (h : (after operand op).Spells tokens start) :
    ∃ k, kindAt tokens (start + operand.width) = some k ∧ k.after = some op := by
  simpa [Option.bind_eq_some_iff] using h.2

theorem exists_of_spells_between
    {op : Operation} {left right : Phrase} {start : Nat}
    (h : (between left op right).Spells tokens start) :
    ∃ k, kindAt tokens (start + left.width) = some k ∧ k.between = some op := by
  simpa [Option.bind_eq_some_iff] using h.2.1

/-! ## Balance -/

/-- No comma stands there. -/
def NoComma (k : TokenKind) : Prop := k ≠ .punctuation .comma

theorem balanced_operator
    {index : Nat} {o : Operator} (hkind : kindAt tokens index = some (.operator o)) :
    Balanced tokens NoComma index (index + 1) :=
  .of_kindAt hkind rfl rfl (by simp [NoComma])

/-- Later parts that are balanced are so together with their commas. -/
theorem balanced_later
    {parts : List Phrase}
    (hparts : ∀ p ∈ parts, ∀ start, p.Spells tokens start →
      Balanced tokens NoComma start (start + p.width))
    {start : Nat} (h : SpellsLater tokens parts start) :
    Balanced tokens (fun _ => True) start (start + laterWidth parts) := by
  induction parts generalizing start with
  | nil => exact .empty _ _
  | cons p ps ih =>
      obtain ⟨hcomma, hp, hps⟩ := h
      have hhead := hparts p List.mem_cons_self _ hp
      have htail := ih (fun q hq => hparts q (List.mem_cons_of_mem p hq)) hps
      have hall := (hhead.mono fun _ _ => trivial).trans htail
      have heq : start + laterWidth (p :: ps) = start + 1 + p.width + laterWidth ps := by
        simp only [laterWidth]
        omega
      rw [heq]
      exact .single hcomma rfl rfl trivial hall

/-- Parts that are balanced are so together with the commas between them. -/
theorem balanced_parts
    {parts : List Phrase}
    (hparts : ∀ p ∈ parts, ∀ start, p.Spells tokens start →
      Balanced tokens NoComma start (start + p.width))
    {start : Nat} (h : SpellsParts tokens parts start) :
    Balanced tokens (fun _ => True) start (start + partsWidth parts) := by
  cases parts with
  | nil => exact .empty _ _
  | cons p ps =>
      have hhead := hparts p List.mem_cons_self _ h.1
      have htail := balanced_later (fun q hq => hparts q (List.mem_cons_of_mem p hq)) h.2
      have hall := (hhead.mono fun _ _ => trivial).trans htail
      rwa [Nat.add_assoc] at hall

/-- The tokens of a phrase are balanced, and no comma stands outside their brackets. -/
theorem Spells.balanced
    {p : Phrase} {start : Nat} (h : p.Spells tokens start) :
    Balanced tokens NoComma start (start + p.width) := by
  induction p generalizing start with
  | leaf kind =>
      obtain ⟨k, hk, hleaf⟩ := exists_of_spells_leaf h
      have hoperand := NodeKind.isOperand_of_ofToken? hleaf
      obtain ⟨-, hopens, hcloses⟩ := TokenKind.of_isOperand hoperand
      apply Balanced.of_kindAt hk hopens hcloses
      rintro rfl
      simp [TokenKind.isOperand] at hoperand
  | group b parts ih =>
      obtain ⟨hopening, hparts, hclosing⟩ := h
      have hinner := balanced_parts (fun p hp start hs => ih p hp hs) hparts
      have heq : start + (group b parts).width = start + 1 + partsWidth parts + 1 := by
        simp only [width]
        omega
      rw [heq]
      exact .of_pair hopening hinner hclosing
  | before op operand ih =>
      obtain ⟨k, hk, hbefore⟩ := exists_of_spells_before h
      obtain ⟨o, rfl, -⟩ := TokenKind.exists_operator_of_before hbefore
      have heq : start + (before op operand).width = start + 1 + operand.width := by
        simp only [width]
        omega
      rw [heq]
      exact (balanced_operator hk).trans (ih h.2)
  | after operand op ih =>
      obtain ⟨k, hk, hafter⟩ := exists_of_spells_after h
      obtain ⟨o, rfl, -⟩ := TokenKind.exists_operator_of_after hafter
      exact (ih h.1).trans (balanced_operator hk)
  | applied callee b parts ih ihParts =>
      obtain ⟨hcallee, hopening, hparts, hclosing⟩ := h
      have hinner := balanced_parts (fun p hp start hs => ihParts p hp hs) hparts
      have heq : start + (applied callee b parts).width =
          start + callee.width + 1 + partsWidth parts + 1 := by
        simp only [width]
        omega
      rw [heq]
      exact (ih hcallee).trans (.of_pair hopening hinner hclosing)
  | between left op right ihLeft ihRight =>
      obtain ⟨k, hk, hbetween⟩ := exists_of_spells_between h
      obtain ⟨o, rfl, -⟩ := TokenKind.exists_operator_of_between hbetween
      have heq : start + (between left op right).width = start + left.width + 1 + right.width := by
        simp only [width]
        omega
      rw [heq]
      exact ((ihLeft h.1).trans (balanced_operator hk)).trans (ihRight h.2.2)

theorem SpellsParts.balanced
    {parts : List Phrase} {start : Nat} (h : SpellsParts tokens parts start) :
    Balanced tokens (fun _ => True) start (start + partsWidth parts) :=
  balanced_parts (fun _ _ _ hs => hs.balanced) h

/-- Each of several phrases is spelled where the one before it and a single token end. -/
def EachSpells (tokens : Array Token) : List Phrase → (start : Nat) → Prop
  | [], _ => True
  | p :: ps, start => p.Spells tokens start ∧ EachSpells tokens ps (start + p.width + 1)

theorem SpellsLater.eachSpells
    {parts : List Phrase} {start : Nat} (h : SpellsLater tokens parts start) :
    EachSpells tokens parts (start + 1) := by
  induction parts generalizing start with
  | nil => trivial
  | cons p ps ih => exact ⟨h.2.1, ih h.2.2⟩

theorem SpellsParts.eachSpells
    {parts : List Phrase} {start : Nat} (h : SpellsParts tokens parts start) :
    EachSpells tokens parts start := by
  cases parts with
  | nil => trivial
  | cons p ps => exact ⟨h.1, h.2.eachSpells⟩

/-- The tokens of a phrase are there. -/
theorem Spells.le_size
    {p : Phrase} {start : Nat} (h : p.Spells tokens start) : start + p.width ≤ tokens.size := by
  induction p generalizing start with
  | leaf kind =>
      obtain ⟨k, hk, -⟩ := exists_of_spells_leaf h
      exact lt_size_of_kindAt hk
  | group b parts _ =>
      have := lt_size_of_kindAt h.2.2
      simp only [width]
      omega
  | before op operand ih =>
      have := ih h.2
      simp only [width]
      omega
  | after operand op _ =>
      obtain ⟨k, hk, -⟩ := exists_of_spells_after h
      exact lt_size_of_kindAt hk
  | applied callee b parts _ _ =>
      have := lt_size_of_kindAt h.2.2.2
      simp only [width]
      omega
  | between left op right _ ih =>
      have := ih h.2.2
      simp only [width]
      omega

/-! ## Scopes -/

/-- The scope of a bracket group is the group. -/
theorem matching_of_spells
    {b : Bracket} {parts : List Phrase} {start stop : Nat}
    (h : (group b parts).Spells tokens start) (hstop : start + (group b parts).width ≤ stop) :
    Scope.matching tokens ⟨start, stop⟩ b = .ok ⟨start, start + (group b parts).width⟩ := by
  obtain ⟨hopening, hparts, hclosing⟩ := h
  simp only [width] at hstop ⊢
  have hlast : start + 1 + partsWidth parts < stop := by omega
  rw [Scope.matching_of_balanced hopening hparts.balanced hclosing hlast]
  simp only [Except.ok.injEq, Scope.mk.injEq, true_and]
  omega

/-- Later parts are split off at the commas before them. -/
theorem splitFrom_of_spells
    {p : Phrase} {ps : List Phrase} {start stop : Nat} (hp : p.Spells tokens start)
    (hps : SpellsLater tokens ps (start + p.width))
    (hstop : start + p.width + laterWidth ps = stop) (steps : Nat) (hsteps : stop - start ≤ steps) :
    splitFrom tokens .comma stop steps start start = .ok (partRanges (p :: ps) start) := by
  induction ps generalizing p start steps with
  | nil =>
      simp only [laterWidth, Nat.add_zero] at hstop
      obtain ⟨left, -, heq⟩ := splitFrom_of_balanced (fun _ hk => hk) hp.balanced
        (Nat.le_of_eq hstop) steps start hsteps
      rw [heq, hstop]
      cases left <;> simp [splitFrom, partRanges, hstop]
  | cons q qs ih =>
      obtain ⟨hcomma, hq, hqs⟩ := hps
      simp only [laterWidth] at hstop
      have hend : start + p.width ≤ stop := by omega
      obtain ⟨left, hleft, heq⟩ := splitFrom_of_balanced (fun _ hk => hk) hp.balanced hend steps
        start hsteps
      obtain ⟨more, rfl⟩ : ∃ more, left = more + 1 := ⟨left - 1, by omega⟩
      have hrest := ih hq hqs (by omega) more (by omega)
      obtain ⟨t, ht, hkind⟩ := kindAt_eq_some_iff.mp hcomma
      have hopens : t.kind.opens = none := by rw [hkind]; rfl
      have hmark : t.isPunctuation .comma = true := by simp [Token.isPunctuation, hkind]
      have hlt : ¬ stop ≤ start + p.width := by omega
      rw [heq, splitFrom]
      simp [hlt, ht, hopens, hmark, hrest, partRanges]

/-- The parts of a bracket group are those of its scope. -/
theorem resolve_of_spells
    {b : Bracket} {parts : List Phrase} {start stop : Nat}
    (h : (group b parts).Spells tokens start) (hstop : start + (group b parts).width ≤ stop) :
    Separated.resolve tokens ⟨start, stop⟩ b .comma =
      .ok ⟨⟨start, start + (group b parts).width⟩, partRanges parts (start + 1)⟩ := by
  have hsplit : splitParts tokens
      (⟨start, start + (group b parts).width⟩ : Scope).interior .comma =
        .ok (partRanges parts (start + 1)) := by
    simp only [Scope.interior, splitParts, TokenRange.isEmpty, width]
    cases parts with
    | nil => simp [partsWidth, partRanges]
    | cons p ps =>
        have hpos := p.width_pos
        obtain ⟨-, ⟨hp, hps⟩, -⟩ := h
        have hne : ¬ start + (partsWidth (p :: ps) + 2) - 1 ≤ start + 1 := by
          simp only [partsWidth]
          omega
        simp only [hne, decide_false, Bool.false_eq_true, if_false]
        refine splitFrom_of_spells hp hps ?_ _ ?_
        · simp only [partsWidth]
          omega
        · simp only [TokenRange.length]
          omega
  simp [Separated.resolve, matching_of_spells h hstop, hsplit]

/-- The tokens of a range are those of the phrase. -/
structure Covers (tokens : Array Token) (p : Phrase) (range : TokenRange) : Prop where
  spells : p.Spells tokens range.start
  stop_eq : range.start + p.width = range.stop

/-- Phrases that cover the ranges between separators are spelled with the separators between
them. -/
theorem spellsParts_of_cuts
    {start stop : Nat} {ranges : List TokenRange} (hcuts : Cuts tokens .comma start stop ranges)
    {parts : List Phrase} (hcovers : List.Forall₂ (Covers tokens) parts ranges) :
    SpellsParts tokens parts start ∧ start + partsWidth parts = stop ∧
      ranges = partRanges parts start := by
  induction hcuts generalizing parts with
  | last start stop =>
      obtain _ | ⟨hp, hnil⟩ := hcovers
      cases hnil
      have hstop := hp.stop_eq
      refine ⟨⟨hp.spells, trivial⟩, hstop, ?_⟩
      simp only [partRanges, hstop]
  | @more start middle stop later hcomma hlater ih =>
      obtain _ | @⟨p, _, ps, _, hp, hps⟩ := hcovers
      obtain ⟨hspells, hwidth, rfl⟩ := ih hps
      have hmiddle : start + p.width = middle := hp.stop_eq
      subst hmiddle
      -- The first part of what follows stands after a comma of this group.
      cases ps with
      | nil => cases hlater
      | cons q qs =>
          refine ⟨⟨hp.spells, hcomma, hspells⟩, ?_, rfl⟩
          simp only [partsWidth, laterWidth] at hwidth ⊢
          omega

/-- Phrases that cover the parts of a scope are the parts of a bracket group. -/
theorem spells_group_of_resolve
    {b : Bracket} {start stop : Nat} {separated : Separated} {parts : List Phrase}
    (hresolve : Separated.resolve tokens ⟨start, stop⟩ b .comma = .ok separated)
    (hcovers : List.Forall₂ (Covers tokens) parts separated.parts) :
    (group b parts).Spells tokens start ∧ start + (group b parts).width ≤ stop ∧
      separated = ⟨⟨start, start + (group b parts).width⟩, partRanges parts (start + 1)⟩ := by
  unfold Separated.resolve at hresolve
  cases hmatching : Scope.matching tokens ⟨start, stop⟩ b with
  | error e => simp [hmatching] at hresolve
  | ok scope =>
      cases hsplit : splitParts tokens scope.interior .comma with
      | error e => simp [hmatching, hsplit] at hresolve
      | ok ranges =>
          simp only [hmatching, hsplit, Except.ok.injEq] at hresolve
          subst hresolve
          obtain ⟨hstart, hlength, hstop, -⟩ := Scope.bounds_of_matching hmatching
          obtain ⟨hopening, hclosing⟩ := Scope.marks_of_matching hmatching
          obtain ⟨first, last⟩ := scope
          simp only at hstart hlength hstop hopening hclosing hcovers
          subst hstart
          unfold splitParts at hsplit
          split at hsplit
          · rename_i hempty
            have hlast : last = first + 2 := by
              have hzero := (TokenRange.isEmpty_iff_length_eq_zero _).mp hempty
              simp only [Scope.interior, TokenRange.length] at hzero
              omega
            subst hlast
            cases hsplit
            cases hcovers
            exact ⟨⟨hopening, trivial, hclosing⟩, hstop, rfl⟩
          · obtain ⟨hspells, hwidth, rfl⟩ := spellsParts_of_cuts (cuts_of_splitFrom hsplit) hcovers
            simp only [Scope.interior] at hspells hwidth
            have hlast : first + (group b parts).width = last := by
              simp only [width]
              omega
            refine ⟨⟨hopening, hspells, by rwa [hwidth]⟩, by omega, ?_⟩
            simp [Scope.interior, hlast]

/-- The trees of parts are those that start where their ranges do. -/
theorem partTrees_eq
    (parts : List Phrase) (start : Nat) :
    partTrees parts start =
      List.zipWith (fun p range => (p.tree range.start).bare) parts (partRanges parts start) := by
  induction parts generalizing start with
  | nil => rfl
  | cons p ps ih => simp [partTrees, partRanges, ih]

/-! ## Leading parentheses -/

/-- A phrase that starts with a parenthesis but is no pair of parentheses starts with a shorter
pair. -/
theorem exists_parens_of_spells
    {p : Phrase} {start : Nat} (h : p.Spells tokens start) (hp : p.isParens = false)
    (hfirst : kindAt tokens start = some (.punctuation .lparen)) :
    ∃ parts, (group .paren parts).Spells tokens start ∧ (group .paren parts).width < p.width := by
  have hsub : ∀ q : Phrase, q.Spells tokens start → (q.isParens = false →
      ∃ parts, (group .paren parts).Spells tokens start ∧
        (group .paren parts).width < q.width) →
      ∃ parts, (group .paren parts).Spells tokens start ∧
        (group .paren parts).width ≤ q.width := by
    intro q hq ih
    cases hparens : q.isParens with
    | false =>
        obtain ⟨parts, hparts, hlt⟩ := ih hparens
        exact ⟨parts, hparts, Nat.le_of_lt hlt⟩
    | true =>
        cases q with
        | group b parts =>
            cases b with
            | paren => exact ⟨parts, hq, Nat.le_refl _⟩
            | square | brace => simp [isParens] at hparens
        | leaf | before | after | applied | between => simp [isParens] at hparens
  induction p with
  | leaf kind =>
      obtain ⟨k, hk, hleaf⟩ := exists_of_spells_leaf h
      rw [hfirst] at hk
      cases hk
      simp [NodeKind.ofToken?] at hleaf
  | group b parts _ =>
      have hopening := h.1
      rw [hfirst] at hopening
      cases b <;> simp_all [isParens, Bracket.opening]
  | before op operand _ =>
      obtain ⟨k, hk, hbefore⟩ := exists_of_spells_before h
      rw [hfirst] at hk
      cases hk
      simp at hbefore
  | after operand op ih =>
      obtain ⟨parts, hparts, hle⟩ := hsub operand h.1 (ih h.1)
      exact ⟨parts, hparts, by simp only [width] at *; omega⟩
  | applied callee b args ih _ =>
      obtain ⟨parts, hparts, hle⟩ := hsub callee h.1 (ih h.1)
      exact ⟨parts, hparts, by simp only [width] at *; omega⟩
  | between left op right ih _ =>
      obtain ⟨parts, hparts, hle⟩ := hsub left h.1 (ih h.1)
      exact ⟨parts, hparts, by simp only [width] at *; omega⟩

end Phrase

end ExprFront
