import ExprFront.Expression.Attempt

/-!
# Results within the limit

A result is shallow if it is no error about the nesting limit. This goes through
a sequence of steps if each step keeps what the next one relies on.
-/

namespace ExprFront

/-- The error is not about the nesting limit. -/
def ParseError.IsShallow (e : ParseError) : Prop :=
  ∀ limit spot, e ≠ .nestingTooDeep limit spot

theorem isShallow_misplacedAt
    (tokens : Array Token) (kind : Misplacement) (production : Production) (index : Nat) :
    (ParseError.misplacedAt tokens kind production index).IsShallow := by
  intro limit spot
  simp [ParseError.misplacedAt]

theorem isShallow_fault
    (f : Fault) : (ParseError.fault f).IsShallow := by
  intro limit spot
  simp

theorem isShallow_scope
    (e : ScopeError) : (ParseError.scope e).IsShallow := by
  intro limit spot
  simp

/-- A value that meets a condition, or an error that meets another one. -/
def Settles {ε α : Type} (good : ε → Prop) (condition : α → Prop) : Except ε α → Prop
  | .ok a => condition a
  | .error e => good e

namespace Settles

variable {ε α β : Type} {good : ε → Prop} {condition : α → Prop} {goal : β → Prop}

theorem bind
    {result : Except ε α} {next : α → Except ε β} (h : Settles good condition result)
    (hnext : ∀ a, condition a → result = .ok a → Settles good goal (next a)) :
    Settles good goal (result >>= next) := by
  cases result with
  | ok a => exact hnext a h rfl
  | error e => exact h

theorem mono
    {wider : α → Prop} {result : Except ε α} (h : Settles good condition result)
    (hwider : ∀ a, condition a → wider a) : Settles good wider result := by
  cases result with
  | ok a => exact hwider a h
  | error e => exact h

end Settles

/-- The result is no error about the nesting limit. -/
def Shallow {α : Type} (result : Except ParseError α) : Prop :=
  Settles ParseError.IsShallow (fun _ => True) result

/-- The result is the error about the nesting limit. -/
def TooDeep {α : Type} (result : Except ParseError α) : Prop :=
  ∃ limit spot, result = .error (.nestingTooDeep limit spot)

theorem Shallow.not_tooDeep
    {α : Type} {result : Except ParseError α} (h : Shallow result) : ¬ TooDeep result := by
  rintro ⟨limit, spot, rfl⟩
  exact h limit spot rfl

theorem shallow_liftScope
    {α : Type} (result : Except ScopeError α) :
    Settles ParseError.IsShallow (fun a => result = .ok a) (liftScope result) := by
  cases result with
  | ok a => exact rfl
  | error e => exact isShallow_scope e

namespace Attempt

variable {α β : Type} {condition : α → Prop}

/-- The attempt finds a value that meets a condition, or fails for another reason than the nesting
limit. -/
def Reaches (condition : α → Prop) (attempt : Attempt α) : Prop :=
  Settles (fun failure => failure.error.IsShallow) condition attempt

theorem reaches_fail
    {e : ParseError} (h : e.IsShallow) : Reaches condition (fail e) := h

theorem Reaches.after
    {attempt : Attempt α} (h : attempt.Reaches condition) (t : Tree) :
    (attempt.after t).Reaches condition := by
  cases attempt with
  | ok a => exact h
  | error failure => exact h

theorem reaches_lift
    {result : Except ParseError α} (h : Settles ParseError.IsShallow condition result) :
    Reaches condition (lift result) := by
  cases result with
  | ok a => exact h
  | error e => exact h

theorem reaches_ofScope
    (result : Except ScopeError α) : Reaches (fun a => result = .ok a) (ofScope result) :=
  reaches_lift (shallow_liftScope result)

/-- What is found is passed on. -/
theorem Reaches.found
    {found : Tree × Nat → Prop} {goal : β → Prop} {attempt : Attempt (Tree × Nat)}
    {next : Tree → Nat → Attempt β} :
    attempt.Reaches found → (∀ t i, found (t, i) → (next t i).Reaches goal) →
    Reaches goal
      (match attempt with
        | .ok (t, i) => next t i
        | .error failure => .error failure) := by
  intro h hnext
  cases attempt with
  | ok result => exact hnext result.1 result.2 h
  | error failure => exact h

end Attempt

end ExprFront
