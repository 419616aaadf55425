import ExprFront.Expression.Attempt

/-!
# Refusals

Every error but a fault refuses the input. A result that is a value or a refusal
is free of faults; this goes through a sequence of steps if each step keeps what
the next one relies on.
-/

namespace ExprFront

/-- The error is about the input. -/
def ParseError.IsRefusal (e : ParseError) : Prop :=
  ∀ f, e ≠ .fault f

theorem isRefusal_misplacedAt
    (tokens : Array Token) (kind : Misplacement) (production : Production) (index : Nat) :
    (ParseError.misplacedAt tokens kind production index).IsRefusal := by
  intro f
  simp [ParseError.misplacedAt]

theorem isRefusal_tooDeepAt
    (tokens : Array Token) (limit index : Nat) :
    (ParseError.tooDeepAt tokens limit index).IsRefusal := by
  intro f
  simp [ParseError.tooDeepAt]

theorem isRefusal_scope
    (e : ScopeError) : (ParseError.scope e).IsRefusal := by
  intro f
  simp

variable {α β : Type}

/-- The result is a value or a refusal. -/
def Faultless (result : Except ParseError α) : Prop :=
  ∀ f, result ≠ .error (.fault f)

theorem faultless_of_isRefusal
    {e : ParseError} (h : e.IsRefusal) : Faultless (.error e : Except ParseError α) := by
  rintro f ⟨⟩
  exact h f rfl

theorem faultless_ok
    (a : α) : Faultless (.ok a : Except ParseError α) := by
  rintro f ⟨⟩

theorem Faultless.isRefusal
    {result : Except ParseError α} {e : ParseError} (h : Faultless result)
    (herror : result = .error e) : e.IsRefusal := by
  rintro f rfl
  exact h f herror

theorem Faultless.bind
    {result : Except ParseError α} {next : α → Except ParseError β} (h : Faultless result)
    (hnext : ∀ a, result = .ok a → Faultless (next a)) : Faultless (result >>= next) := by
  cases result with
  | ok a => exact hnext a rfl
  | error e => exact faultless_of_isRefusal (h.isRefusal rfl)

theorem faultless_liftScope
    (result : Except ScopeError α) : Faultless (liftScope result) := by
  cases result with
  | ok a => exact faultless_ok a
  | error e => exact faultless_of_isRefusal (isRefusal_scope e)

/-- The result is a value that meets a condition, or a refusal. -/
def Meets (condition : α → Prop) : Except ParseError α → Prop
  | .ok a => condition a
  | .error e => e.IsRefusal

theorem Meets.faultless
    {condition : α → Prop} {result : Except ParseError α} (h : Meets condition result) :
    Faultless result := by
  cases result with
  | ok a => exact faultless_ok a
  | error e => exact faultless_of_isRefusal h

theorem Meets.bind
    {condition : α → Prop} {goal : β → Prop} {result : Except ParseError α}
    {next : α → Except ParseError β} (h : Meets condition result)
    (hnext : ∀ a, condition a → Meets goal (next a)) : Meets goal (result >>= next) := by
  cases result with
  | ok a => exact hnext a h
  | error e => exact h

theorem Meets.mono
    {condition goal : α → Prop} {result : Except ParseError α} (h : Meets condition result)
    (hgoal : ∀ a, condition a → goal a) : Meets goal result := by
  cases result with
  | ok a => exact hgoal a h
  | error e => exact h

namespace Attempt

/-- The attempt fails by one of the given errors. -/
def FailsBy (bad : ParseError → Prop) (attempt : Attempt α) : Prop :=
  ∃ failure, attempt = .error failure ∧ bad failure.error

/-- The attempt fails, but not by a fault. -/
abbrev Refused (attempt : Attempt α) : Prop := attempt.FailsBy ParseError.IsRefusal

theorem failsBy_fail
    {bad : ParseError → Prop} {e : ParseError} (h : bad e) : (fail e : Attempt α).FailsBy bad :=
  ⟨_, rfl, h⟩

theorem failsBy_failAfter
    {bad : ParseError → Prop} {t : Tree} {e : ParseError} (h : bad e) :
    (failAfter t e : Attempt α).FailsBy bad :=
  ⟨_, rfl, h⟩

theorem FailsBy.after
    {bad : ParseError → Prop} {attempt : Attempt α} (h : attempt.FailsBy bad) (t : Tree) :
    (attempt.after t).FailsBy bad := by
  obtain ⟨failure, rfl, hbad⟩ := h
  exact ⟨_, rfl, hbad⟩

/-- If the attempt fails, it is not by a fault. -/
def Faultless (attempt : Attempt α) : Prop :=
  ∀ failure, attempt = .error failure → failure.error.IsRefusal

theorem faultless_ok
    (a : α) : Faultless (.ok a : Attempt α) := by
  rintro failure ⟨⟩

theorem FailsBy.faultless
    {attempt : Attempt α} (h : attempt.Refused) : attempt.Faultless := by
  obtain ⟨failure, rfl, hrefusal⟩ := h
  rintro _ ⟨⟩
  exact hrefusal

/-- A failure that is passed on is none by a fault. -/
theorem Faultless.error
    {attempt : Attempt α} {failure : Failure} (h : attempt.Faultless)
    (hfailure : attempt = .error failure) : Faultless (.error failure : Attempt β) :=
  FailsBy.faultless ⟨failure, rfl, h failure hfailure⟩

theorem Faultless.after
    {attempt : Attempt α} (h : attempt.Faultless) (t : Tree) : (attempt.after t).Faultless := by
  cases attempt with
  | ok a => exact faultless_ok a
  | error failure => exact (FailsBy.after ⟨failure, rfl, h failure rfl⟩ t).faultless

theorem Faultless.bind
    {attempt : Attempt α} {next : α → Attempt β} (h : attempt.Faultless)
    (hnext : ∀ a, attempt = .ok a → (next a).Faultless) : (attempt >>= next).Faultless := by
  cases attempt with
  | ok a => exact hnext a rfl
  | error failure => exact h.error rfl

end Attempt

end ExprFront
