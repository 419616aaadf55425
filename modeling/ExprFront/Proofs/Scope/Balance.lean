import ExprFront.Proofs.Vocabulary.Priority
import ExprFront.Scope.Separated

/-!
# Balanced segments

A segment of the tokens is balanced if its brackets pair up within it. A walk
for a closing bracket passes over a balanced segment and keeps the brackets
that were open before it, so a bracket pair with a balanced interior resolves
to exactly that pair, whatever follows it. A split passes over a balanced
segment in the same way, unless a separator stands in it outside brackets.
-/

namespace ExprFront

/-! ## Kinds of tokens by index -/

/-- The kind of the token at an index. -/
def kindAt (tokens : Array Token) (index : Nat) : Option TokenKind :=
  tokens[index]?.map Token.kind

theorem kindAt_eq_some_iff
    {tokens : Array Token} {index : Nat} {k : TokenKind} :
    kindAt tokens index = some k ↔ ∃ t, tokens[index]? = some t ∧ t.kind = k := by
  simp [kindAt]

theorem lt_size_of_kindAt
    {tokens : Array Token} {index : Nat} {k : TokenKind}
    (hkind : kindAt tokens index = some k) : index < tokens.size := by
  obtain ⟨t, ht, -⟩ := kindAt_eq_some_iff.mp hkind
  exact (Array.getElem?_eq_some_iff.mp ht).1

theorem exists_kindAt
    {tokens : Array Token} {index : Nat} (hindex : index < tokens.size) :
    ∃ k, kindAt tokens index = some k :=
  ⟨tokens[index].kind, by simp [kindAt, hindex]⟩

/-! ## Balanced segments -/

/-- The brackets from `start` to `stop` pair up, and every token outside them is free. -/
inductive Balanced (tokens : Array Token) : (free : TokenKind → Prop) → (start stop : Nat) → Prop
  | empty (free : TokenKind → Prop) (start : Nat) : Balanced tokens free start start
  | single {free : TokenKind → Prop} {start stop : Nat} {k : TokenKind}
      (hkind : kindAt tokens start = some k) (hopens : k.opens = none)
      (hcloses : k.closes = none) (hfree : free k)
      (hrest : Balanced tokens free (start + 1) stop) : Balanced tokens free start stop
  | nested {free : TokenKind → Prop} {start middle stop : Nat} {b : Bracket}
      (hopening : kindAt tokens start = some (.punctuation b.opening))
      (hinner : Balanced tokens (fun _ => True) (start + 1) middle)
      (hclosing : kindAt tokens middle = some (.punctuation b.closing))
      (hrest : Balanced tokens free (middle + 1) stop) : Balanced tokens free start stop

namespace Balanced

variable {tokens : Array Token} {free : TokenKind → Prop} {start middle stop : Nat}

theorem le (h : Balanced tokens free start stop) : start ≤ stop := by
  induction h with
  | empty => exact Nat.le_refl _
  | single _ _ _ _ _ ih => omega
  | nested _ _ _ _ ihInner ihRest => omega

theorem trans
    (hleft : Balanced tokens free start middle) (hright : Balanced tokens free middle stop) :
    Balanced tokens free start stop := by
  induction hleft with
  | empty => exact hright
  | single hkind hopens hcloses hfree _ ih =>
      exact .single hkind hopens hcloses hfree (ih hright)
  | nested hopening hinner hclosing _ _ ih =>
      exact .nested hopening hinner hclosing (ih hright)

theorem mono
    {wider : TokenKind → Prop} (hwider : ∀ k, free k → wider k)
    (h : Balanced tokens free start stop) : Balanced tokens wider start stop := by
  induction h with
  | empty => exact .empty _ _
  | single hkind hopens hcloses hfree _ ih =>
      exact .single hkind hopens hcloses (hwider _ hfree) (ih hwider)
  | nested hopening hinner hclosing _ _ ih =>
      exact .nested hopening hinner hclosing (ih hwider)

/-- A single token outside brackets. -/
theorem of_kindAt
    {k : TokenKind} (hkind : kindAt tokens start = some k) (hopens : k.opens = none)
    (hcloses : k.closes = none) (hfree : free k) : Balanced tokens free start (start + 1) :=
  .single hkind hopens hcloses hfree (.empty _ _)

/-- A bracket pair with a balanced interior. -/
theorem of_pair
    {b : Bracket} (hopening : kindAt tokens start = some (.punctuation b.opening))
    (hinner : Balanced tokens (fun _ => True) (start + 1) middle)
    (hclosing : kindAt tokens middle = some (.punctuation b.closing)) :
    Balanced tokens free start (middle + 1) :=
  .nested hopening hinner hclosing (.empty _ _)

/-- The first token of a segment closes no bracket, and is free if it opens none. -/
theorem exists_first
    (h : Balanced tokens free start stop) (hstart : start < stop) :
    ∃ k, kindAt tokens start = some k ∧ k.closes = none ∧ (k.opens = none → free k) := by
  cases h with
  | empty => exact absurd hstart (Nat.lt_irrefl _)
  | single hkind _ hcloses hfree => exact ⟨_, hkind, hcloses, fun _ => hfree⟩
  | @nested _ _ _ _ b hopening =>
      refine ⟨_, hopening, ?_, ?_⟩
      · cases b <;> rfl
      · intro hopens
        rw [TokenKind.opens_eq_some_iff.mpr rfl] at hopens
        cases hopens

end Balanced

/-! ## Walks -/

namespace ScopeShape

theorem step_of_single
    {b : Bracket} {opener t : Token} {pending : List Token}
    (hopens : t.kind.opens = none) (hcloses : t.kind.closes = none) :
    (bracket b).step opener pending t = .next pending := by
  have hclosing : t.isPunctuation b.closing = false := by
    rw [Token.isPunctuation, beq_eq_false_iff_ne]
    intro hkind
    simp [TokenKind.closes_eq_some_iff.mpr hkind] at hcloses
  have hopening : t.isPunctuation b.opening = false := by
    rw [Token.isPunctuation, beq_eq_false_iff_ne]
    intro hkind
    simp [TokenKind.opens_eq_some_iff.mpr hkind] at hopens
  simp [step, bracket, Boundary.admits, hclosing, hopening, hopens, hcloses]

theorem step_of_opening
    {b inner : Bracket} {opener t : Token} {pending : List Token}
    (hkind : t.kind = .punctuation inner.opening) :
    (bracket b).step opener pending t = .next (t :: pending) := by
  have hclosing : t.isPunctuation b.closing = false := by
    rw [Token.isPunctuation, hkind]
    cases inner <;> cases b <;> rfl
  have hopens : t.kind.opens = some inner := TokenKind.opens_eq_some_iff.mpr hkind
  simp [step, bracket, Boundary.admits, hclosing, hopens]

theorem step_of_closing
    {b inner : Bracket} {opener top t : Token} {pending : List Token}
    (htop : top.kind = .punctuation inner.opening)
    (hkind : t.kind = .punctuation inner.closing) :
    (bracket b).step opener (top :: pending) t = .next pending := by
  have hopens : t.kind.opens = none := by
    rw [hkind]
    cases inner <;> rfl
  have hcloses : t.kind.closes = some inner := TokenKind.closes_eq_some_iff.mpr hkind
  have htopOpens : top.kind.opens = some inner := TokenKind.opens_eq_some_iff.mpr htop
  simp [step, stepCloser, hopens, hcloses, htopOpens]

theorem step_of_final
    {b : Bracket} {opener t : Token} (hkind : t.kind = .punctuation b.closing) :
    (bracket b).step opener [] t = .closed := by
  simp [step, bracket, Boundary.admits, Token.isPunctuation, hkind]

/-- A walk passes over a balanced segment and keeps the brackets that are open. -/
theorem walk_of_balanced
    {tokens : Array Token} {free : TokenKind → Prop} {start stop : Nat}
    (h : Balanced tokens free start stop) (b : Bracket) (opener : Token) (steps : Nat)
    (pending : List Token) :
    (bracket b).walk tokens opener (steps + (stop - start)) start pending =
      (bracket b).walk tokens opener steps stop pending := by
  induction h generalizing steps pending with
  | empty => simp
  | @single _ start stop k hkind hopens hcloses _ hrest ih =>
      obtain ⟨t, ht, rfl⟩ := kindAt_eq_some_iff.mp hkind
      have hsteps : steps + (stop - start) = steps + (stop - (start + 1)) + 1 := by
        have := hrest.le
        omega
      rw [hsteps, walk, ht]
      simp only [step_of_single hopens hcloses]
      exact ih steps pending
  | @nested _ start middle stop inner hopening hinner hclosing hrest ihInner ihRest =>
      obtain ⟨first, hfirst, hfirstKind⟩ := kindAt_eq_some_iff.mp hopening
      obtain ⟨last, hlast, hlastKind⟩ := kindAt_eq_some_iff.mp hclosing
      have hsteps : steps + (stop - start) =
          steps + (stop - (middle + 1)) + 1 + (middle - (start + 1)) + 1 := by
        have := hinner.le
        have := hrest.le
        omega
      rw [hsteps, walk, hfirst]
      simp only [step_of_opening hfirstKind]
      rw [ihInner, walk, hlast]
      simp only [step_of_closing hfirstKind hlastKind]
      exact ihRest steps pending

/-- A walk that closes has found a token that may close. -/
theorem closing_of_walk
    {shape : ScopeShape} {tokens : Array Token} {opener : Token} {steps index after : Nat}
    {pending : List Token} (hwalk : shape.walk tokens opener steps index pending = .ok after) :
    ∃ t, tokens[after - 1]? = some t ∧ shape.closing.admits t = true := by
  induction steps generalizing index pending with
  | zero => simp [walk] at hwalk
  | succ steps ih =>
      rw [walk] at hwalk
      split at hwalk
      · simp at hwalk
      · rename_i t ht
        split at hwalk
        · rename_i hstep
          cases hwalk
          refine ⟨t, ht, ?_⟩
          unfold step at hstep
          split at hstep
          · simp_all
          · split at hstep
            · simp at hstep
            · split at hstep
              · unfold stepCloser at hstep
                split at hstep
                · simp at hstep
                · split at hstep
                  · simp at hstep
                  · split at hstep <;> simp at hstep
              · split at hstep <;> simp at hstep
        · exact ih hwalk
        · simp at hwalk

end ScopeShape

/-! ## Bracket scopes -/

namespace Scope

/-- A bracket pair with a balanced interior resolves to itself. -/
theorem matching_of_balanced
    {tokens : Array Token} {b : Bracket} {start middle stop : Nat}
    (hopening : kindAt tokens start = some (.punctuation b.opening))
    (hinner : Balanced tokens (fun _ => True) (start + 1) middle)
    (hclosing : kindAt tokens middle = some (.punctuation b.closing))
    (hstop : middle < stop) :
    matching tokens ⟨start, stop⟩ b = .ok ⟨start, middle + 1⟩ := by
  obtain ⟨first, hfirst, hfirstKind⟩ := kindAt_eq_some_iff.mp hopening
  obtain ⟨last, hlast, hlastKind⟩ := kindAt_eq_some_iff.mp hclosing
  have hmiddle := lt_size_of_kindAt hclosing
  have hle := hinner.le
  have hsteps : min stop tokens.size - (start + 1) =
      min stop tokens.size - (middle + 1) + 1 + (middle - (start + 1)) := by
    omega
  have hadmits : (ScopeShape.bracket b).opening.admits first = true := by
    simp [ScopeShape.bracket, Boundary.admits, Token.isPunctuation, hfirstKind]
  have hwalk : (ScopeShape.bracket b).walk tokens first (min stop tokens.size - (start + 1))
      (start + 1) [] = .ok (middle + 1) := by
    rw [hsteps, ScopeShape.walk_of_balanced hinner, ScopeShape.walk, hlast]
    simp only [ScopeShape.step_of_final hlastKind]
  have hlt : start < min stop tokens.size := by omega
  have hinitial : (ScopeShape.bracket b).initial first = [] := by
    simp [ScopeShape.initial, ScopeShape.bracket, ScopeRule.isStatement]
  simp [matching, ScopeShape.resolve, hfirst, hadmits, hlt, hinitial, hwalk]

/-- A resolved bracket scope starts with its opening mark and ends with its closing mark. -/
theorem marks_of_matching
    {tokens : Array Token} {range : TokenRange} {b : Bracket} {s : Scope}
    (hmatching : matching tokens range b = .ok s) :
    kindAt tokens s.start = some (.punctuation b.opening) ∧
      kindAt tokens (s.stop - 1) = some (.punctuation b.closing) := by
  unfold matching ScopeShape.resolve at hmatching
  dsimp only at hmatching
  split at hmatching
  · rename_i opener hopener
    split at hmatching
    · rename_i hopen
      split at hmatching
      · rename_i after hwalk
        cases hmatching
        simp only [Bool.and_eq_true, decide_eq_true_eq] at hopen
        obtain ⟨t, ht, hadmits⟩ := ScopeShape.closing_of_walk hwalk
        have hfirst : opener.kind = .punctuation b.opening := by
          simpa [ScopeShape.bracket, Boundary.admits, Token.isPunctuation] using hopen.2
        have hlast : t.kind = .punctuation b.closing := by
          simpa [ScopeShape.bracket, Boundary.admits, Token.isPunctuation] using hadmits
        exact ⟨kindAt_eq_some_iff.mpr ⟨opener, hopener, hfirst⟩,
          kindAt_eq_some_iff.mpr ⟨t, ht, hlast⟩⟩
      · simp at hmatching
    · simp at hmatching
  · simp at hmatching

/-- A resolved bracket scope starts where the range does and stays within it and the tokens. -/
theorem bounds_of_matching
    {tokens : Array Token} {start stop : Nat} {b : Bracket} {s : Scope}
    (hmatching : matching tokens ⟨start, stop⟩ b = .ok s) :
    s.start = start ∧ s.start + 2 ≤ s.stop ∧ s.stop ≤ stop ∧ s.stop ≤ tokens.size := by
  have hbounds := (ScopeShape.bracket b).resolve_bounds tokens ⟨start, stop⟩ s hmatching
  dsimp only at hbounds
  omega

end Scope

/-! ## Splitting -/

/-- A split passes over a balanced segment without separators outside brackets. -/
theorem splitFrom_of_balanced
    {tokens : Array Token} {separator : Punctuation} {start stop last : Nat}
    {free : TokenKind → Prop} (hfree : ∀ k, free k → k ≠ .punctuation separator)
    (h : Balanced tokens free start stop) (hlast : stop ≤ last)
    (steps first : Nat) (hsteps : last - start ≤ steps) :
    ∃ left, last - stop ≤ left ∧
      splitFrom tokens separator last steps first start =
        splitFrom tokens separator last left first stop := by
  induction h generalizing steps with
  | empty => exact ⟨steps, hsteps, rfl⟩
  | @single _ start stop k hkind hopens hcloses hk hrest ih =>
      have hle := hrest.le
      obtain ⟨more, rfl⟩ : ∃ more, steps = more + 1 := ⟨steps - 1, by omega⟩
      obtain ⟨left, hleft, heq⟩ := ih hfree hlast more (by omega)
      refine ⟨left, hleft, ?_⟩
      obtain ⟨t, ht, rfl⟩ := kindAt_eq_some_iff.mp hkind
      have hseparator : t.isPunctuation separator = false := by
        simpa [Token.isPunctuation] using hfree _ hk
      have hstart : ¬ last ≤ start := by omega
      rw [← heq, splitFrom]
      simp [hstart, ht, hopens, hseparator]
  | @nested _ start middle stop b hopening hinner hclosing hrest _ ih =>
      have hle := hrest.le
      have hinnerLe := hinner.le
      obtain ⟨more, rfl⟩ : ∃ more, steps = more + 1 := ⟨steps - 1, by omega⟩
      obtain ⟨left, hleft, heq⟩ := ih hfree hlast more (by omega)
      refine ⟨left, hleft, ?_⟩
      obtain ⟨t, ht, hkind⟩ := kindAt_eq_some_iff.mp hopening
      have hopens : t.kind.opens = some b := TokenKind.opens_eq_some_iff.mpr hkind
      have hmiddle : middle < last := by omega
      have hmatching := Scope.matching_of_balanced hopening hinner hclosing hmiddle
      have hstart : ¬ last ≤ start := by omega
      rw [← heq, splitFrom]
      simp [hstart, ht, hopens, hmatching]

/-- Ranges that cover a segment up to single separators between them. -/
inductive Cuts (tokens : Array Token) (separator : Punctuation) :
    (start stop : Nat) → List TokenRange → Prop
  | last (start stop : Nat) : Cuts tokens separator start stop [⟨start, stop⟩]
  | more {start middle stop : Nat} {later : List TokenRange}
      (hseparator : kindAt tokens middle = some (.punctuation separator))
      (hlater : Cuts tokens separator (middle + 1) stop later) :
      Cuts tokens separator start stop (⟨start, middle⟩ :: later)

/-- The parts of a split are cut at separators. -/
theorem cuts_of_splitFrom
    {tokens : Array Token} {separator : Punctuation} {stop steps first index : Nat}
    {parts : List TokenRange}
    (hsplit : splitFrom tokens separator stop steps first index = .ok parts) :
    Cuts tokens separator first stop parts := by
  induction steps generalizing first index parts with
  | zero =>
      cases hsplit
      exact .last first stop
  | succ steps ih =>
      rw [splitFrom] at hsplit
      split at hsplit
      · cases hsplit
        exact .last first stop
      · split at hsplit
        · cases hsplit
          exact .last first stop
        · rename_i t ht
          split at hsplit
          · split at hsplit
            · exact ih hsplit
            · simp at hsplit
          · split at hsplit
            · rename_i hseparator
              split at hsplit
              · rename_i later hlater
                cases hsplit
                refine .more (kindAt_eq_some_iff.mpr ⟨t, ht, ?_⟩) (ih hlater)
                simpa [Token.isPunctuation] using hseparator
              · simp at hsplit
            · exact ih hsplit

end ExprFront
