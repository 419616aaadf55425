import ExprFront.Expression.Attempt
import ExprFront.Proofs.Scope.Window
import ExprFront.Proofs.Tree.Shape

/-!
# Runs side by side

Two runs of one function are compared step by step: they have related values or
they fail alike, unless the first one ends early by an error that the second one
need not have. This goes through a sequence of steps if it holds of each step.
-/

namespace ExprFront

/-- Related values or errors, or an error by which the first run ends early. -/
inductive Follows {ε α β : Type} (early : ε → Prop) (alike : ε → ε → Prop)
    (related : α → β → Prop) : Except ε α → Except ε β → Prop
  | ok {a : α} {b : β} (h : related a b) : Follows early alike related (.ok a) (.ok b)
  | error {e e' : ε} (h : alike e e') : Follows early alike related (.error e) (.error e')
  | early {e : ε} (h : early e) (other : Except ε β) : Follows early alike related (.error e) other

theorem Follows.bind
    {ε α β γ δ : Type} {early : ε → Prop} {alike : ε → ε → Prop} {related : α → β → Prop}
    {goal : γ → δ → Prop} {x : Except ε α} {y : Except ε β} {next : α → Except ε γ}
    {next' : β → Except ε δ} (h : Follows early alike related x y)
    (hnext : ∀ a b, related a b → y = .ok b → Follows early alike goal (next a) (next' b)) :
    Follows early alike goal (x >>= next) (y >>= next') := by
  cases h with
  | ok h => exact hnext _ _ h rfl
  | error h => exact .error h
  | early h => exact .early h _

/-! ## Moved trees -/

/-- The tree in which every node starts and ends so many tokens later. -/
def Tree.moved (offset : Nat) (t : Tree) : Tree := t.mapRanges (TokenRange.moved offset)

@[simp] theorem Tree.moved_node
    (offset : Nat) (kind : NodeKind) (range : TokenRange) (ts : List Tree) :
    (node kind range ts).moved offset =
      node kind (range.moved offset) (ts.map (Tree.moved offset)) :=
  mapRanges_node _ _ _ _

@[simp] theorem Tree.range_moved
    (offset : Nat) (t : Tree) : (t.moved offset).range = t.range.moved offset := by
  cases t
  rfl

theorem Tree.moved_zero
    (t : Tree) : t.moved 0 = t := by
  induction t with
  | node kind range ts ih =>
      have hts : ts.map (Tree.moved 0) = ts.map id := List.map_congr_left ih
      rw [moved_node, TokenRange.moved_zero, hts, List.map_id]

/-- The tree and the index after it, so many tokens later. -/
def movedFound (offset : Nat) (found : Tree × Nat) : Tree × Nat :=
  (found.1.moved offset, offset + found.2)

/-- The failure with what was finished before it, so many tokens later. -/
def Failure.moved (offset : Nat) (failure : Failure) : Failure :=
  ⟨failure.error, failure.finished.map (Tree.moved offset)⟩

theorem Failure.moved_zero
    (failure : Failure) : failure.moved 0 = failure := by
  have hid : Tree.moved 0 = id := funext Tree.moved_zero
  rw [moved, hid, List.map_id]

namespace Attempt

variable {α β : Type} {early : ParseError → Prop} {offset : Nat} {place : β → α}

/-- An attempt has the outcome of another one that is made so many tokens before, unless it ends
early. -/
def Tracks (early : ParseError → Prop) (offset : Nat) (place : β → α) (attempt : Attempt α)
    (other : Attempt β) : Prop :=
  Follows (fun failure => early failure.error) (fun failure other => failure = other.moved offset)
    (fun a b => a = place b) attempt other

theorem tracks_ok
    {a : α} {b : β} (h : a = place b) : Tracks early offset place (.ok a) (.ok b) :=
  .ok h

theorem tracks_early
    {failure : Failure} (h : early failure.error) (other : Attempt β) :
    Tracks early offset place (.error failure) other := by
  apply Follows.early
  exact h

theorem tracks_fail
    {e e' : ParseError} (h : e = e') : Tracks early offset place (fail e) (fail e') := by
  subst h
  exact .error rfl

theorem tracks_failAfter
    (t : Tree) {e e' : ParseError} (h : e = e') :
    Tracks early offset place (failAfter (t.moved offset) e) (failAfter t e') := by
  subst h
  exact .error rfl

theorem Tracks.bind
    {γ δ : Type} {place' : δ → γ} {attempt : Attempt α} {other : Attempt β}
    {next : α → Attempt γ} {next' : β → Attempt δ} (h : Tracks early offset place attempt other)
    (hnext : ∀ b, other = .ok b → Tracks early offset place' (next (place b)) (next' b)) :
    Tracks early offset place' (attempt >>= next) (other >>= next') :=
  Follows.bind h fun _ b heq hother => heq ▸ hnext b hother

/-- What is found is passed on. -/
theorem Tracks.found
    {γ δ : Type} {place' : δ → γ} {attempt other : Attempt (Tree × Nat)}
    {next : Tree → Nat → Attempt γ} {next' : Tree → Nat → Attempt δ} :
    Tracks early offset (movedFound offset) attempt other →
    (∀ t i, other = .ok (t, i) →
      Tracks early offset place' (next (t.moved offset) (offset + i)) (next' t i)) →
    Tracks early offset place'
      (match attempt with
        | .ok (t, i) => next t i
        | .error failure => .error failure)
      (match other with
        | .ok (t, i) => next' t i
        | .error failure => .error failure) := by
  intro h hnext
  cases h with
  | ok h =>
      subst h
      exact hnext _ _ rfl
  | error h => exact .error h
  | early h => exact tracks_early h _

theorem Tracks.after
    {attempt : Attempt α} {other : Attempt β} (h : Tracks early offset place attempt other)
    (t : Tree) : Tracks early offset place (attempt.after (t.moved offset)) (other.after t) := by
  cases h with
  | ok h => exact .ok h
  | error h =>
      subst h
      exact .error rfl
  | early h =>
      apply tracks_early
      exact h

theorem lift_eq_ok_iff
    {result : Except ParseError α} {a : α} : lift result = .ok a ↔ result = .ok a := by
  cases result <;> simp [lift, fail]

theorem ofScope_eq_ok_iff
    {result : Except ScopeError α} {a : α} : ofScope result = .ok a ↔ result = .ok a := by
  cases result <;> simp [ofScope, lift, liftScope, fail]

/-- A scope in a window is resolved as it is in the excerpt. -/
theorem tracks_ofScope
    {result : Except ScopeError α} {other : Except ScopeError β} (h : result = other.map place) :
    Tracks early offset place (ofScope result) (ofScope other) := by
  subst h
  cases other with
  | ok b => exact tracks_ok rfl
  | error e => exact tracks_fail rfl

end Attempt

end ExprFront
