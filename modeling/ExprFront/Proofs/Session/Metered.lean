import ExprFront.Proofs.Grouping.Metered
import ExprFront.Proofs.Reading.Metered
import ExprFront.Proofs.Session.Faultless

/-!
# The depth of recursion is bounded by the nesting limit

The calls of a session are made with a meter that is one less at every call of a
function by another, whether or not it goes a level deeper. However long the
input is, a meter that is proportional to the nesting limit does not run out,
whichever way the configuration has the expression read, and more of it changes
nothing. For the recursion through `climb` and `fill`, and through the grouping
of parts, this is known from the absence of faults; the metered functions have
the same outcome with a constant number of calls for each of its levels.
-/

namespace ExprFront

open Reading (SameFills SameClimbs)

/-- The run has the outcome and comes to it before its meter runs out. -/
structure Completes {ε α : Type} (early : ε → Prop) (run outcome : Except ε α) : Prop where
  eq : run = outcome
  not_early : ∀ e, run = .error e → ¬ early e

theorem SameUnless.completes
    {ε α : Type} {early : ε → Prop} {result other : Except ε α} (h : SameUnless early result other)
    (hnot : ∀ e, result = .error e → ¬ early e) : Completes early other result := by
  have heq := h.eq hnot
  exact ⟨heq.symm, fun e herror => hnot e (heq.trans herror)⟩

theorem Attempt.Faultless.not_spent
    {α : Type} {attempt : Attempt α} (h : attempt.Faultless) (failure : Failure)
    (hfailure : attempt = .error failure) : ¬ failure.Spent :=
  (h failure hfailure).not_spent

theorem Faultless.not_spent
    {α : Type} {result : Except ParseError α} (h : Faultless result) (e : ParseError)
    (herror : result = .error e) : ¬ e.Spent :=
  (h.isRefusal herror).not_spent

/-! ## Metered calls of a session -/

/-- The expression that fills a range of tokens, with parentheses around every application. -/
def Grouping.Metered.groupTokens (tokens : Array Token) (range : TokenRange) (limit fuel : Nat) :
    Except ParseError Grouped :=
  match Metered.expression tokens limit fuel 0 range #[] with
  | .ok entries => .ok ⟨entries⟩
  | .error e => .error e

/-- The tree of the longest expression at the start of a range, and the index after it. -/
def Reading.Metered.longest (r : Reading) (fuel : Nat) (range : TokenRange) :
    Attempt (Tree × Nat) :=
  if range.isEmpty then .fail (r.misplaced .emptyOperand .expression range.start)
  else Metered.climb r fuel 0 range.start range.stop 0

namespace Session.Metered

/-- The expression in a range by way of its grouped form. -/
def normalized (s : Session) (fuel : Nat) (range : TokenRange) : Answer NodeId :=
  match Grouping.Metered.groupTokens s.tokens range s.config.limit fuel with
  | .error e => (.error e, s)
  | .ok g =>
      match Reading.Metered.fill (.grouped g s.config.limit) fuel 0 ⟨0, g.entries.size⟩ .grouping
      with
      | .error failure => (.error failure.error, s)
      | .ok tree => s.commit (s.adopt g tree)

/-- The expression in a range, read as it was written. -/
def direct (s : Session) (fuel : Nat) (range : TokenRange) : Answer NodeId :=
  match Reading.Metered.fill s.reading fuel 0 range .expression with
  | .error failure => s.refuse failure
  | .ok tree => s.commit (s.arena.build tree)

/-- The expression that fills a range. -/
def expression (s : Session) (fuel : Nat) (range : TokenRange) : Answer NodeId :=
  match if s.normalizes range then normalized s fuel range else direct s fuel range with
  | (.error e, s) => (.error e, s)
  | (.ok inner, s) => s.commit (s.enclose range inner)

/-- The longest expression at the start of a range, and the index after it. -/
def longest (s : Session) (fuel : Nat) (range : TokenRange) : Answer (NodeId × Nat) :=
  match Reading.Metered.longest s.reading fuel range with
  | .error failure => s.refuse failure
  | .ok (tree, next) =>
      s.commit ((s.arena.build tree).map fun (id, arena) => ((id, next), arena))

end Session.Metered

/-! ## Meters that suffice -/

/-- The calls for each level of nesting that are more than enough: seven for each of the 64 that
recursion through `climb` and `fill` may take. -/
def callsPerLevel : Nat := 448

section Suffices

variable {tokens : Array Token} {range : TokenRange} {limit fuel : Nat}

theorem Grouping.Metered.completes_groupTokens
    (hstop : range.stop ≤ tokens.size) (hfuel : callsPerLevel * (limit + 1) ≤ fuel) :
    Completes ParseError.Spent (Metered.groupTokens tokens range limit fuel)
      (ExprFront.groupTokens tokens range limit) := by
  have hfaultless := faultless_groupTokens hstop limit
  have hlevels : 3 * recursionBound limit ≤ fuel := by
    simp only [recursionBound, callsPerLevel] at hfuel ⊢
    omega
  have hsame := Metered.sameEmits_expression tokens limit hlevels 0 range #[]
  refine SameUnless.completes ?_ hfaultless.not_spent
  unfold Metered.groupTokens ExprFront.groupTokens
  generalize Grouping.expression tokens limit (recursionBound limit) 0 range #[] = entries
    at hsame ⊢
  generalize Metered.expression tokens limit fuel 0 range #[] = entries' at hsame ⊢
  cases hsame with
  | ok h => exact .ok (by rw [h])
  | error h => exact .error h
  | early h => exact .early h _

namespace Reading.Metered

theorem completes_fill
    {r : Reading} {production : Production} (hfaultless : (r.whole range production).Faultless)
    (hfuel : callsPerLevel * (r.limit + 1) ≤ fuel) :
    Completes Failure.Spent (fill r fuel 0 range production) (r.whole range production) := by
  have hlevels : 7 * recursionBound r.limit ≤ fuel := by
    simp only [recursionBound, callsPerLevel] at hfuel ⊢
    omega
  exact ((sameClimbs_and_sameFills r hlevels).2 0 range production).completes hfaultless.not_spent

theorem completes_longest
    (hstop : range.stop ≤ tokens.size) (hfuel : callsPerLevel * (limit + 1) ≤ fuel) :
    Completes Failure.Spent (longest (.plain tokens limit) fuel range)
      ((plain tokens limit).longest range) := by
  have hlevels : 7 * recursionBound limit ≤ fuel := by
    simp only [recursionBound, callsPerLevel] at hfuel ⊢
    omega
  refine SameUnless.completes ?_ (faultless_longest_plain hstop limit).not_spent
  unfold longest Reading.longest
  split
  · exact .refl _
  · exact (sameClimbs_and_sameFills (plain tokens limit) hlevels).1 0 range.start range.stop 0

end Reading.Metered

end Suffices

/-- Each call of the recursion is made with a meter that suffices: the metered functions come to
the outcome of the grouping, of the two ways to read an expression, and of the calls of a session,
before the meter runs out. -/
structure Session.MeterSuffices (s : Session) (range : TokenRange) (fuel : Nat) : Prop where
  grouping : Completes ParseError.Spent
    (Grouping.Metered.groupTokens s.tokens range s.config.limit fuel)
    (groupTokens s.tokens range s.config.limit)
  grouped : ∀ g, groupTokens s.tokens range s.config.limit = .ok g → ∀ production,
    Completes Failure.Spent
      (Reading.Metered.fill (.grouped g s.config.limit) fuel 0 ⟨0, g.entries.size⟩ production)
      ((Reading.grouped g s.config.limit).whole ⟨0, g.entries.size⟩ production)
  whole : ∀ production, Completes Failure.Spent
    (Reading.Metered.fill s.reading fuel 0 range production) (s.reading.whole range production)
  longest : Completes Failure.Spent (Reading.Metered.longest s.reading fuel range)
    (s.reading.longest range)
  expression : Metered.expression s fuel range = s.expression range ∧
    (s.expression range).1 ≠ .error (.fault .exhausted)
  longestAnswer : Metered.longest s fuel range = s.longest range ∧
    (s.longest range).1 ≠ .error (.fault .exhausted)

/-- A meter of a constant for each level of nesting suffices, whatever the tokens, the
configuration and the length of the range, and so does a larger one. -/
theorem Session.meterSuffices
    (s : Session) (range : TokenRange) (hstop : range.stop ≤ s.tokens.size) (fuel : Nat)
    (hfuel : callsPerLevel * (s.config.limit + 1) ≤ fuel) : s.MeterSuffices range fuel := by
  have hgrouping := Grouping.Metered.completes_groupTokens hstop hfuel
  have hgrouped : ∀ g, groupTokens s.tokens range s.config.limit = .ok g → ∀ production,
      Completes Failure.Spent
        (Reading.Metered.fill (.grouped g s.config.limit) fuel 0 ⟨0, g.entries.size⟩ production)
        ((Reading.grouped g s.config.limit).whole ⟨0, g.entries.size⟩ production) :=
    fun g hg production =>
      Reading.Metered.completes_fill (Reading.faultless_whole_grouped hg production) hfuel
  have hwhole : ∀ production, Completes Failure.Spent
      (Reading.Metered.fill s.reading fuel 0 range production)
      (s.reading.whole range production) := fun production =>
    Reading.Metered.completes_fill (Reading.faultless_whole_plain hstop _ production) hfuel
  have hlongest : Completes Failure.Spent (Reading.Metered.longest s.reading fuel range)
      (s.reading.longest range) := Reading.Metered.completes_longest hstop hfuel
  have hnormalized : Metered.normalized s fuel range = s.normalized range := by
    cases hg : groupTokens s.tokens range s.config.limit with
    | error e => simp only [Metered.normalized, Session.normalized, hgrouping.eq, hg]
    | ok g =>
        have hfilled := (hgrouped g hg .grouping).eq
        cases hread : (Reading.grouped g s.config.limit).whole ⟨0, g.entries.size⟩ .grouping <;>
          simp only [Metered.normalized, Session.normalized, hgrouping.eq, hg, hfilled, hread]
  have hdirect : Metered.direct s fuel range = s.direct range := by
    rw [Metered.direct, (hwhole .expression).eq]
    rfl
  have hexpression : Metered.expression s fuel range = s.expression range := by
    rw [Metered.expression, hnormalized, hdirect]
    rfl
  have hlongestAnswer : Metered.longest s fuel range = s.longest range := by
    rw [Metered.longest, hlongest.eq]
    rfl
  exact ⟨hgrouping, hgrouped, hwhole, hlongest,
    ⟨hexpression, faultless_expression hstop .exhausted⟩,
    ⟨hlongestAnswer, faultless_longest hstop .exhausted⟩⟩

/-- A meter of 448 for each of the 256 levels and one more suffices for `-f.g(x)*y`; a meter of one
does not. -/
theorem Session.meterSuffices_sample :
    (TokenRange.mk 0 9).stop ≤ Session.sampleTokens.size ∧ callsPerLevel * (256 + 1) ≤ 115136 ∧
      (Session.start Session.sampleTokens .standard).MeterSuffices ⟨0, 9⟩ 115136 ∧
      (Metered.expression (.start Session.sampleTokens .standard) 1 ⟨0, 9⟩).1 =
        .error (.fault .exhausted) := by
  have hfuel : callsPerLevel * (256 + 1) ≤ 115136 := by decide
  exact ⟨by decide, hfuel, meterSuffices _ _ (by decide) _ hfuel, rfl⟩

end ExprFront
