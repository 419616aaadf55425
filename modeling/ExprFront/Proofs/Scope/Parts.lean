import ExprFront.Proofs.Scope.Matching
import Mathlib.Data.Nat.Count

/-!
# Exact splitting

The interior of a matched pair is balanced, so a split of it never fails: every
bracket that it meets closes within the interior. It cuts the interior at the
separators at depth zero and nowhere else. The depth of a place counts the
brackets that are open there; it is zero at both ends of a balanced segment and
positive between a bracket and its partner.
-/

namespace ExprFront

variable {tokens : Array Token} {separator : Punctuation} {free : TokenKind → Prop}
  {start middle stop : Nat} {parts : List TokenRange}

/-! ## Depth -/

/-- What a token adds to the depth. -/
def depthChange (k : Option TokenKind) : Int :=
  if (k.bind TokenKind.opens).isSome then 1
  else if (k.bind TokenKind.closes).isSome then -1
  else 0

/-- The number of brackets that are open after the given number of tokens from `start`. -/
def depthAfter (tokens : Array Token) (start : Nat) : (count : Nat) → Int
  | 0 => 0
  | count + 1 => depthAfter tokens start count + depthChange (kindAt tokens (start + count))

/-- The number of separators at depth zero among the given number of tokens from `start`. -/
def separatorCount (tokens : Array Token) (separator : Punctuation) (start count : Nat) : Nat :=
  Nat.count (fun i => depthAfter tokens start i = 0 ∧
    kindAt tokens (start + i) = some (.punctuation separator)) count

theorem depthAfter_add
    (start count more : Nat) :
    depthAfter tokens start (count + more) =
      depthAfter tokens start count + depthAfter tokens (start + count) more := by
  induction more with
  | zero => simp [depthAfter]
  | succ more ih =>
      rw [← Nat.add_assoc, depthAfter, depthAfter, ih, Nat.add_assoc, Int.add_assoc]

theorem depthAfter_succ
    (start count : Nat) :
    depthAfter tokens start (count + 1) =
      depthChange (kindAt tokens start) + depthAfter tokens (start + 1) count := by
  rw [Nat.add_comm, depthAfter_add]
  simp [depthAfter]

theorem depthAfter_of_single
    {k : TokenKind} (hkind : kindAt tokens start = some k) (hopens : k.opens = none)
    (hcloses : k.closes = none) (count : Nat) :
    depthAfter tokens start (count + 1) = depthAfter tokens (start + 1) count := by
  have hchange : depthChange (some k) = 0 := by simp [depthChange, hopens, hcloses]
  rw [depthAfter_succ, hkind, hchange, Int.zero_add]

theorem depthAfter_of_opening
    {b : Bracket} (hopening : kindAt tokens start = some (.punctuation b.opening)) (count : Nat) :
    depthAfter tokens start (count + 1) = 1 + depthAfter tokens (start + 1) count := by
  have hchange : depthChange (some (.punctuation b.opening)) = 1 := by cases b <;> rfl
  rw [depthAfter_succ, hopening, hchange]

/-- A pair does not change the depth behind it. -/
theorem depthAfter_of_pair
    {b : Bracket} {length : Nat}
    (hopening : kindAt tokens start = some (.punctuation b.opening))
    (hinner : depthAfter tokens (start + 1) length = 0)
    (hclosing : kindAt tokens (start + 1 + length) = some (.punctuation b.closing))
    (count : Nat) :
    depthAfter tokens start (length + 2 + count) =
      depthAfter tokens (start + 1 + length + 1) count := by
  have hchange : depthChange (some (.punctuation b.closing)) = -1 := by cases b <;> rfl
  rw [depthAfter_add, depthAfter_of_opening hopening, depthAfter, hinner, hclosing, hchange,
    show start + (length + 2) = start + 1 + length + 1 by omega]
  simp

theorem separatorCount_add
    {count : Nat} (hdepth : depthAfter tokens start count = 0) (more : Nat) :
    separatorCount tokens separator start (count + more) =
      separatorCount tokens separator start count +
        separatorCount tokens separator (start + count) more := by
  rw [separatorCount, Nat.count_add]
  simp only [separatorCount, depthAfter_add, hdepth, Int.zero_add, Nat.add_assoc]

theorem separatorCount_succ
    (hkind : kindAt tokens start = some (.punctuation separator)) (hopens : separator.opens = none)
    (hcloses : separator.closes = none) (count : Nat) :
    separatorCount tokens separator start (count + 1) =
      separatorCount tokens separator (start + 1) count + 1 := by
  rw [separatorCount, Nat.count_succ', if_pos ⟨rfl, hkind⟩]
  simp only [separatorCount, depthAfter_of_single hkind hopens hcloses, Nat.add_comm,
    Nat.add_left_comm]

namespace Balanced

/-- The depth is zero at the end of a balanced segment and nowhere negative in it. -/
theorem depthAfter_eq_zero_and_nonneg
    (h : Balanced tokens free start stop) :
    depthAfter tokens start (stop - start) = 0 ∧
      ∀ count ≤ stop - start, 0 ≤ depthAfter tokens start count := by
  induction h with
  | empty start => simp [depthAfter]
  | @single _ start stop k hkind hopens hcloses _ hrest ih =>
      have hle := hrest.le
      have hlength : stop - start = stop - (start + 1) + 1 := by omega
      have hstep := depthAfter_of_single hkind hopens hcloses
      rw [hlength]
      refine ⟨(hstep _).trans ih.1, fun count hcount => ?_⟩
      cases count with
      | zero => exact Int.le_refl 0
      | succ count =>
          rw [hstep]
          exact ih.2 count (by omega)
  | @nested _ start middle stop b hopening hinner hclosing hrest ihInner ihRest =>
      have hlow := hinner.le
      have hhigh := hrest.le
      obtain ⟨length, rfl⟩ : ∃ length, middle = start + 1 + length :=
        ⟨middle - (start + 1), by omega⟩
      rw [Nat.add_sub_cancel_left] at ihInner
      have hlength : stop - start = length + 2 + (stop - (start + 1 + length + 1)) := by omega
      have hbehind := depthAfter_of_pair hopening ihInner.1 hclosing
      rw [hlength]
      refine ⟨(hbehind _).trans ihRest.1, fun count hcount => ?_⟩
      by_cases hinside : count ≤ length + 1
      · cases count with
        | zero => exact Int.le_refl 0
        | succ count =>
            have := ihInner.2 count (by omega)
            rw [depthAfter_of_opening hopening]
            omega
      · obtain ⟨more, rfl⟩ : ∃ more, count = length + 2 + more := ⟨count - (length + 2), by omega⟩
        rw [hbehind]
        exact ihRest.2 more (by omega)

/-- A separator that stands in a balanced segment at depth zero is one of its free tokens. -/
theorem free_of_depthAfter
    (h : Balanced tokens free start stop) (hseparator : separator.opens = none) {i : Nat}
    (hi : i < stop - start) (hdepth : depthAfter tokens start i = 0)
    (hkind : kindAt tokens (start + i) = some (.punctuation separator)) :
    free (.punctuation separator) := by
  induction h generalizing i with
  | empty => omega
  | @single _ start stop k hk hopens hcloses hfree hrest ih =>
      cases i with
      | zero =>
          cases hk.symm.trans hkind
          exact hfree
      | succ i =>
          rw [depthAfter_of_single hk hopens hcloses] at hdepth
          rw [Nat.add_comm i, ← Nat.add_assoc] at hkind
          exact ih (by omega) hdepth hkind
  | @nested _ start middle stop b hopening hinner hclosing hrest _ ihRest =>
      have hlow := hinner.le
      obtain ⟨length, rfl⟩ : ∃ length, middle = start + 1 + length :=
        ⟨middle - (start + 1), by omega⟩
      obtain ⟨hzero, hnonneg⟩ := hinner.depthAfter_eq_zero_and_nonneg
      rw [Nat.add_sub_cancel_left] at hzero hnonneg
      by_cases hinside : i ≤ length + 1
      · cases i with
        | zero => exact absurd hopening (not_opening_of_opens hkind hseparator)
        | succ i =>
            have := hnonneg i (by omega)
            rw [depthAfter_of_opening hopening] at hdepth
            omega
      · obtain ⟨more, rfl⟩ : ∃ more, i = length + 2 + more := ⟨i - (length + 2), by omega⟩
        rw [depthAfter_of_pair hopening hzero hclosing] at hdepth
        rw [show start + (length + 2 + more) = start + 1 + length + 1 + more by omega] at hkind
        exact ihRest (by omega) hdepth hkind

/-- A segment in which no separator is free has none at depth zero. -/
theorem separatorCount_eq_zero
    (h : Balanced tokens (· ≠ .punctuation separator) start stop)
    (hseparator : separator.opens = none) :
    separatorCount tokens separator start (stop - start) = 0 := by
  rw [separatorCount, Nat.count_iff_forall_not]
  rintro i hi ⟨hdepth, hkind⟩
  exact h.free_of_depthAfter hseparator hi hdepth hkind rfl

/-- A balanced segment has no separator outside brackets, or it has a first one. -/
theorem exists_separator
    (h : Balanced tokens free start stop) (separator : Punctuation) :
    ∃ middle, Balanced tokens (· ≠ .punctuation separator) start middle ∧
      (middle = stop ∨
        kindAt tokens middle = some (.punctuation separator) ∧
          Balanced tokens free (middle + 1) stop) := by
  induction h with
  | empty => exact ⟨_, .empty _ _, .inl rfl⟩
  | @single _ start stop k hkind hopens hcloses hfree hrest ih =>
      by_cases hk : k = .punctuation separator
      · subst hk
        exact ⟨start, .empty _ _, .inr ⟨hkind, hrest⟩⟩
      · obtain ⟨middle, hmiddle, hbehind⟩ := ih
        exact ⟨middle, .single hkind hopens hcloses hk hmiddle, hbehind⟩
  | nested hopening hinner hclosing _ _ ih =>
      obtain ⟨middle, hmiddle, hbehind⟩ := ih
      exact ⟨middle, .nested hopening hinner hclosing hmiddle, hbehind⟩

end Balanced

/-! ## Splits -/

/-- The parts cover the interior in order up to single separators between them. They are balanced
and have no separator outside brackets, so all separators at depth zero stand between parts. -/
structure SplitExactly (tokens : Array Token) (separator : Punctuation) (interior : TokenRange)
    (parts : List TokenRange) : Prop where
  first : parts.head?.map TokenRange.start = some interior.start
  last : parts.getLast?.map TokenRange.stop = some interior.stop
  ordered : parts.Pairwise fun part later => part.stop < later.start
  gaps : parts.IsChain fun part next =>
    part.stop + 1 = next.start ∧ kindAt tokens part.stop = some (.punctuation separator)
  balanced : ∀ part ∈ parts, Balanced tokens (· ≠ .punctuation separator) part.start part.stop
  count : parts.length = separatorCount tokens separator interior.start interior.length + 1

namespace SplitExactly

theorem of_balanced
    (h : Balanced tokens (· ≠ .punctuation separator) start stop)
    (hseparator : separator.opens = none) :
    SplitExactly tokens separator ⟨start, stop⟩ [⟨start, stop⟩] where
  first := rfl
  last := rfl
  ordered := List.pairwise_singleton _ _
  gaps := .singleton _
  balanced := by
    intro part hpart
    rw [List.mem_singleton.mp hpart]
    exact h
  count := by simp [TokenRange.length, h.separatorCount_eq_zero hseparator]

theorem start_le
    (h : SplitExactly tokens separator ⟨start, stop⟩ parts) {part : TokenRange}
    (hpart : part ∈ parts) : start ≤ part.start := by
  obtain ⟨hfirst, -, hordered, -, hbalanced, -⟩ := h
  cases parts with
  | nil => cases hpart
  | cons head later =>
      have hstart : head.start = start := Option.some.inj hfirst
      rcases List.mem_cons.mp hpart with rfl | hlater
      · exact Nat.le_of_eq hstart.symm
      · have := (hbalanced head List.mem_cons_self).le
        have := List.rel_of_pairwise_cons hordered hlater
        omega

/-- A further part and a separator before the parts. -/
theorem cons
    (h : Balanced tokens (· ≠ .punctuation separator) start middle)
    (hseparator : separator.opens = none) (hcloses : separator.closes = none)
    (hkind : kindAt tokens middle = some (.punctuation separator)) (hle : middle < stop)
    (hlater : SplitExactly tokens separator ⟨middle + 1, stop⟩ parts) :
    SplitExactly tokens separator ⟨start, stop⟩ (⟨start, middle⟩ :: parts) where
  first := rfl
  last := by
    have hlast := hlater.last
    cases parts with
    | nil => cases hlast
    | cons next later => exact hlast
  ordered := List.pairwise_cons.mpr ⟨fun part hpart => hlater.start_le hpart, hlater.ordered⟩
  gaps := by
    have hfirst := hlater.first
    cases parts with
    | nil => cases hfirst
    | cons next later =>
        exact .cons_cons ⟨(Option.some.inj hfirst).symm, hkind⟩ hlater.gaps
  balanced := by
    intro part hpart
    rcases List.mem_cons.mp hpart with rfl | hpart
    · exact h
    · exact hlater.balanced part hpart
  count := by
    have hfirst := h.le
    have hsum : start + (middle - start) = middle := by omega
    have hlength : stop - start = middle - start + (stop - (middle + 1) + 1) := by omega
    have hcount := hlater.count
    dsimp only [TokenRange.length] at hcount ⊢
    rw [List.length_cons, hcount, hlength,
      separatorCount_add h.depthAfter_eq_zero_and_nonneg.1, hsum,
      h.separatorCount_eq_zero hseparator, separatorCount_succ hkind hseparator hcloses,
      Nat.zero_add]

end SplitExactly

/-- A split of a balanced segment does not fail, and it is exact. -/
theorem exists_splitFrom_of_balanced
    (h : Balanced tokens free start stop) (hopens : separator.opens = none)
    (hcloses : separator.closes = none) (steps : Nat) (hsteps : stop - start ≤ steps) :
    ∃ parts, splitFrom tokens separator stop steps start start = .ok parts ∧
      SplitExactly tokens separator ⟨start, stop⟩ parts := by
  -- each part is passed over at once, so the induction is on what is left of the segment
  induction hlength : stop - start using Nat.strong_induction_on generalizing start steps with
  | _ length ih =>
      subst hlength
      obtain ⟨middle, hpart, hbehind⟩ := h.exists_separator separator
      have hlow := hpart.le
      rcases hbehind with rfl | ⟨hkind, hlater⟩
      · obtain ⟨left, -, heq⟩ :=
          splitFrom_of_balanced (fun _ hk => hk) hpart (Nat.le_refl _) steps start hsteps
        refine ⟨_, ?_, .of_balanced hpart hopens⟩
        rw [heq]
        cases left with
        | zero => rfl
        | succ left => rw [splitFrom, if_pos (Nat.le_refl _)]
      · have hhigh := hlater.le
        obtain ⟨left, hleft, heq⟩ :=
          splitFrom_of_balanced (fun _ hk => hk) hpart (by omega) steps start hsteps
        obtain ⟨more, rfl⟩ : ∃ more, left = more + 1 := ⟨left - 1, by omega⟩
        obtain ⟨parts, hparts, hexact⟩ := ih _ (by omega) hlater more (by omega) rfl
        refine ⟨_, ?_, hexact.cons hpart hopens hcloses hkind hhigh⟩
        obtain ⟨t, ht, htKind⟩ := kindAt_eq_some_iff.mp hkind
        have htOpens : t.kind.opens = none := by
          rw [htKind]
          exact hopens
        have htSeparator : t.isPunctuation separator = true := by
          simp [Token.isPunctuation, htKind]
        rw [heq, splitFrom, if_neg (by omega), ht]
        simp only [htOpens, htSeparator, if_true, hparts]

/-- The interior of a resolved bracket scope is balanced. -/
theorem Scope.balanced_of_matching
    {range : TokenRange} {b : Bracket} {scope : Scope}
    (hmatching : matching tokens range b = .ok scope) :
    Balanced tokens (fun _ => True) scope.interior.start scope.interior.stop := by
  obtain ⟨hstart, hlow, hstop, hsize⟩ := bounds_of_matching hmatching
  have hopening := (marks_of_matching hmatching).1
  have hclipped : matching tokens ⟨range.start, min range.stop tokens.size⟩ b = .ok scope := by
    rw [← hmatching]
    simp [matching, ScopeShape.resolve]
  have hlt : range.start < min range.stop tokens.size := by omega
  have hwithin : TokenRange.Within ⟨range.start, min range.stop tokens.size⟩ tokens :=
    ⟨Nat.le_of_lt hlt, Nat.min_le_right _ _⟩
  rw [hstart] at hopening
  obtain ⟨-, hclosed⟩ := (matching_eq_ok_iff hwithin hlt hopening scope).mp hclipped
  rw [interior, hstart]
  exact hclosed.balanced

/-- Wherever a bracket scope resolves, it can be split at any separator that is no bracket, and the
split is exact. -/
theorem Separated.exists_resolve_of_matching
    (separator : Punctuation) (hopens : separator.opens = none) (hcloses : separator.closes = none)
    {range : TokenRange} {b : Bracket} {scope : Scope}
    (hmatching : Scope.matching tokens range b = .ok scope) :
    ∃ parts, Separated.resolve tokens range b separator = .ok ⟨scope, parts⟩ ∧
      (scope.interior.isEmpty = true → parts = []) ∧
      (scope.interior.isEmpty = false →
        SplitExactly tokens separator scope.interior parts) := by
  simp only [Separated.resolve, hmatching]
  cases hempty : scope.interior.isEmpty with
  | true => exact ⟨[], by simp [splitParts, hempty], fun _ => rfl, by simp⟩
  | false =>
      obtain ⟨parts, hparts, hexact⟩ := exists_splitFrom_of_balanced
        (Scope.balanced_of_matching hmatching) hopens hcloses scope.interior.length (Nat.le_refl _)
      exact ⟨parts, by simp [splitParts, hempty, hparts], by simp, fun _ => hexact⟩

/-- The tokens of `([a,b],)`. -/
def sampleTrailing : Array Token :=
  #[⟨.punctuation .lparen, "(", ⟨0, 1⟩, 1, 1, 1⟩, ⟨.punctuation .lbracket, "[", ⟨1, 2⟩, 1, 2, 1⟩,
    ⟨.identifier, "a", ⟨2, 3⟩, 1, 3, 1⟩, ⟨.punctuation .comma, ",", ⟨3, 4⟩, 1, 4, 1⟩,
    ⟨.identifier, "b", ⟨4, 5⟩, 1, 5, 1⟩, ⟨.punctuation .rbracket, "]", ⟨5, 6⟩, 1, 6, 1⟩,
    ⟨.punctuation .comma, ",", ⟨6, 7⟩, 1, 7, 1⟩, ⟨.punctuation .rparen, ")", ⟨7, 8⟩, 1, 8, 1⟩]

/-- The separator within the inner brackets does not count, and the last part is empty. -/
theorem Separated.exists_resolve_of_matching_sample :
    Scope.matching sampleTrailing ⟨0, 8⟩ .paren = .ok ⟨0, 8⟩ ∧
      ∃ parts, Separated.resolve sampleTrailing ⟨0, 8⟩ .paren .comma = .ok ⟨⟨0, 8⟩, parts⟩ ∧
        SplitExactly sampleTrailing .comma ⟨1, 7⟩ parts ∧ parts.length = 2 := by
  have hmatching : Scope.matching sampleTrailing ⟨0, 8⟩ .paren = .ok ⟨0, 8⟩ := rfl
  obtain ⟨parts, hparts, -, hexact⟩ :=
    exists_resolve_of_matching .comma rfl rfl hmatching
  have hsplit := hexact rfl
  exact ⟨hmatching, parts, hparts, hsplit, hsplit.count.trans (by decide)⟩

end ExprFront
