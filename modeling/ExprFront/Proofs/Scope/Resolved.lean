import ExprFront.Proofs.Scope.Matching
import ExprFront.Proofs.Scope.Partition

/-!
# Brackets of statements

What is taken for a statement is balanced, apart from a closing bracket that it may
start with. So every opening bracket of a range that is split has its partner in the
statement that holds it, and a search that knows of no statements and may go on to
the end of the range stops at that very partner. Pairs of brackets do not cross,
because a bracket that opens inside a pair is closed inside it.
-/

namespace ExprFront

variable {tokens : Array Token}

/-! ## Pairs of brackets -/

namespace Scope

/-- The scope is a pair of brackets with a balanced segment between them. -/
structure IsPair (tokens : Array Token) (b : Bracket) (s : Scope) : Prop where
  innermost : Innermost tokens b s.start (s.stop - 1)
  closing : kindAt tokens (s.stop - 1) = some (.punctuation b.closing)

/-- One of the scopes lies before the other or between its delimiters. -/
inductive Apart (s t : Scope) : Prop
  | before (h : s.stop ≤ t.start)
  | behind (h : t.stop ≤ s.start)
  | inside (h : t.interior.contains s.range = true)
  | around (h : s.interior.contains t.range = true)

variable {b b' : Bracket} {s t : Scope}

theorem IsPair.start_lt
    (h : IsPair tokens b s) : s.start + 1 < s.stop := by
  have hlt := h.innermost.lt
  omega

theorem isPair_of_matching
    {index stop : Nat} (hindex : index < stop) (hstop : stop ≤ tokens.size)
    (hopening : kindAt tokens index = some (.punctuation b.opening))
    (h : matching tokens ⟨index, stop⟩ b = .ok s) : s.start = index ∧ IsPair tokens b s := by
  obtain ⟨hstart, hclosed⟩ :=
    (matching_eq_ok_iff ⟨Nat.le_of_lt hindex, hstop⟩ hindex hopening s).mp h
  dsimp only at hstart
  subst hstart
  exact ⟨rfl, ⟨hopening, hclosed.balanced⟩, hclosed.closing⟩

/-- A pair that opens later than another one opens behind it or is closed inside. -/
theorem IsPair.apart_of_lt
    (hs : IsPair tokens b s) (ht : IsPair tokens b' t) (hlt : s.start < t.start) :
    s.stop ≤ t.start ∨ s.interior.contains t.range = true := by
  rcases Nat.lt_or_ge t.start s.stop with hinside | hbehind
  · right
    -- The closing bracket of the first pair opens nothing.
    have hne : t.start ≠ s.stop - 1 := by
      intro heq
      have hopening := ht.innermost.opens
      rw [heq] at hopening
      exact not_opening_of_closing hs.closing hopening
    obtain ⟨closing, hclosing, hbalanced, hkind⟩ :=
      hs.innermost.balanced.exists_closing hlt (by omega) ht.innermost.opens
    have hpartner := hbalanced.middle_unique ht.innermost.opens hkind ht.innermost.balanced
      ht.closing
    rw [TokenRange.contains_iff]
    simp only [interior, range]
    omega
  · exact .inl hbehind

/-- Different pairs do not cross. -/
theorem IsPair.apart
    (hs : IsPair tokens b s) (ht : IsPair tokens b' t) (hne : s.start ≠ t.start) :
    s.stop ≠ t.stop ∧ s.Apart t := by
  constructor
  · intro heq
    have htInnermost := ht.innermost
    rw [← heq] at htInnermost
    exact hne (hs.innermost.unique htInnermost).1
  · rcases Nat.lt_or_gt_of_ne hne with hlt | hgt
    · exact (hs.apart_of_lt ht hlt).elim .before .around
    · exact (ht.apart_of_lt hs hgt).elim .behind .inside

end Scope

/-! ## Statements -/

namespace Statement

variable {range : TokenRange} {statements : List Statement}

/-- Every bracket that opens in what is taken for a statement is closed in it. -/
theorem Taken.exists_closing
    (h : Taken tokens range) {index : Nat} {b : Bracket} (hlow : range.start ≤ index)
    (hhigh : index < range.stop)
    (hopening : kindAt tokens index = some (.punctuation b.opening)) :
    ∃ closing, closing < range.stop ∧ Balanced tokens (fun _ => True) (index + 1) closing ∧
      kindAt tokens closing = some (.punctuation b.closing) := by
  cases h with
  | statement hforms => exact hforms.balanced.exists_closing hlow hhigh hopening
  | closing b' hfirst hbalanced _ =>
      rcases Nat.eq_or_lt_of_le hlow with rfl | hlow
      · exact absurd hopening (not_opening_of_closing hfirst)
      · exact hbalanced.exists_closing hlow hhigh hopening

theorem taken_of_split
    (hrange : range.Within tokens) (h : split tokens range = .ok statements) :
    ∀ statement ∈ statements, Taken tokens statement.range := by
  have hsequence := (exists_splitFrom_iff hrange.stop_le hrange.start_le
    (Nat.le_refl range.length) _).mp ⟨statements, h, rfl⟩
  exact List.forall_mem_map.mp hsequence.forms

/-- Every opening bracket of the range is resolved up to the end of the range, inside the one
statement that holds it. Different brackets have different partners, and their scopes do not
cross. -/
structure Resolves (tokens : Array Token) (range : TokenRange) (statements : List Statement) :
    Prop where
  resolved : ∀ (index : Nat) (b : Bracket), range.start ≤ index → index < range.stop →
    kindAt tokens index = some (.punctuation b.opening) →
    ∃ scope statement, Scope.matching tokens ⟨index, range.stop⟩ b = .ok scope ∧
      scope.start = index ∧ statement ∈ statements ∧ statement.Holds index ∧
      (∀ other ∈ statements, other.Holds index → other = statement) ∧
      statement.range.contains scope.range = true
  apart : ∀ (index index' : Nat) (b b' : Bracket) (s t : Scope), range.start ≤ index →
    index < range.stop → kindAt tokens index = some (.punctuation b.opening) →
    range.start ≤ index' → index' < range.stop →
    kindAt tokens index' = some (.punctuation b'.opening) →
    Scope.matching tokens ⟨index, range.stop⟩ b = .ok s →
    Scope.matching tokens ⟨index', range.stop⟩ b' = .ok t → index ≠ index' →
    s.stop ≠ t.stop ∧ s.Apart t

/-- Once a range is split into statements, all its brackets resolve. -/
theorem resolves_of_split
    (hrange : range.Within tokens) (h : split tokens range = .ok statements) :
    Resolves tokens range statements where
  resolved index b hlow hhigh hopening := by
    have hpartitions : Partitions tokens range statements :=
      partitions_of_splitFrom hrange.stop_le hrange.start_le (Nat.le_refl _) h
    rcases hpartitions.covered index hlow hhigh with
      ⟨statement, ⟨hmem, hholds⟩, hunique⟩ | ⟨hsemicolon, -⟩
    · have hdelimited := hpartitions.delimited statement hmem
      obtain ⟨hstart, hstop⟩ := id hholds
      rw [hdelimited.scope_eq] at hstart hstop
      dsimp only at hstart hstop
      have hne : index ≠ statement.range.stop := by
        rintro rfl
        exact not_opening_of_opens hdelimited.ended rfl hopening
      obtain ⟨closing, hclosing, hbalanced, hkind⟩ :=
        (taken_of_split hrange h statement hmem).exists_closing hstart (by omega) hopening
      have hwithin := (hpartitions.within statement hmem).2
      rw [hdelimited.scope_eq] at hwithin
      refine ⟨⟨index, closing + 1⟩, statement,
        Scope.matching_of_balanced hopening hbalanced hkind (by dsimp only at hwithin; omega), rfl,
        hmem, hholds, fun other hother hheld => hunique other ⟨hother, hheld⟩, ?_⟩
      rw [TokenRange.contains_iff]
      exact ⟨hstart, hclosing⟩
    · exact absurd hopening (not_opening_of_opens hsemicolon rfl)
  apart index index' b b' s t _ hhigh hopening _ hhigh' hopening' hs ht hne := by
    obtain ⟨rfl, hsPair⟩ := Scope.isPair_of_matching hhigh hrange.stop_le hopening hs
    obtain ⟨rfl, htPair⟩ := Scope.isPair_of_matching hhigh' hrange.stop_le hopening' ht
    exact hsPair.apart htPair hne

end Statement

end ExprFront
