import ExprFront.Proofs.Parallel
import ExprFront.Proofs.Refusal

/-!
# Runs with a meter

A recursion that is cut off by a meter has the outcome of another one, unless it
is cut off before its end. Where it is not, both outcomes are the same; so a run
that is known to end determines that of every other meter which lets it go at
least as far.
-/

namespace ExprFront

variable {ε α β : Type} {early : ε → Prop}

/-- The runs have the same outcome, unless the first one ends early. -/
def SameUnless (early : ε → Prop) (result other : Except ε α) : Prop :=
  Follows early Eq Eq result other

namespace SameUnless

theorem refl (result : Except ε α) : SameUnless early result result := by
  cases result with
  | ok a => exact .ok rfl
  | error e => exact .error rfl

theorem of_early
    {e : ε} (h : early e) (other : Except ε α) : SameUnless early (.error e) other :=
  .early h other

theorem bind
    {result other : Except ε α} {next next' : α → Except ε β} (h : SameUnless early result other)
    (hnext : ∀ a, SameUnless early (next a) (next' a)) :
    SameUnless early (result >>= next) (other >>= next') :=
  Follows.bind h fun a _ heq _ => heq ▸ hnext a

/-- A run that does not end early determines the outcome of the other one. -/
theorem eq
    {result other : Except ε α} (h : SameUnless early result other)
    (hnot : ∀ e, result = .error e → ¬ early e) : result = other := by
  cases h with
  | ok h => rw [h]
  | error h => rw [h]
  | early h => exact absurd h (hnot _ rfl)

end SameUnless

/-- The meter has run out. -/
def ParseError.Spent (e : ParseError) : Prop := e = .fault .exhausted

/-- The attempt fails because its meter has run out. -/
def Failure.Spent (failure : Failure) : Prop := failure.error.Spent

/-- What is about the input does not come from the meter. -/
theorem ParseError.IsRefusal.not_spent
    {e : ParseError} (h : e.IsRefusal) : ¬ e.Spent :=
  h .exhausted

namespace Attempt

variable {attempt other : Attempt (Tree × Nat)}

/-- An attempt without a meter may be continued in any way. -/
theorem sameUnless_exhausted (other : Attempt α) :
    SameUnless Failure.Spent (Attempt.fail (.fault .exhausted)) other := by
  apply SameUnless.of_early
  rfl

/-- What is found is passed on. -/
theorem sameUnless_found
    {next next' : Tree → Nat → Attempt α} :
    SameUnless Failure.Spent attempt other →
    (∀ t i, SameUnless Failure.Spent (next t i) (next' t i)) →
    SameUnless Failure.Spent
      (match attempt with
        | .ok (t, i) => next t i
        | .error failure => .error failure)
      (match other with
        | .ok (t, i) => next' t i
        | .error failure => .error failure) := by
  intro h hnext
  cases h with
  | ok h =>
      subst h
      exact hnext _ _
  | error h => exact .error h
  | early h => exact .early h _

theorem sameUnless_after
    {attempt other : Attempt α} (h : SameUnless Failure.Spent attempt other) (t : Tree) :
    SameUnless Failure.Spent (attempt.after t) (other.after t) := by
  cases h with
  | ok h => exact .ok h
  | error h => exact .error (by rw [h])
  | early h =>
      apply SameUnless.of_early
      exact h

end Attempt

end ExprFront
