import ExprFront.Scope.Boundary
import ExprFront.Scope.Error

/-!
# Scopes

A scope starts at an opening token and ends at the first closing token outside
all brackets that were opened since. Brackets of any kind nest in brackets of
any other, but each closing bracket has to match the innermost open one.

A walk goes through the tokens after the opener and keeps the tokens of the
brackets that are open, innermost first. `ScopeShape.step` says what one token
does to them; `ScopeShape.walk` repeats it.
-/

namespace ExprFront

/-- A resolved scope: its opening token and the place after its closing token. -/
structure Scope where
  start : Nat
  stop : Nat
deriving DecidableEq

namespace Scope

/-- The tokens of the scope, both delimiters included. -/
def range (s : Scope) : TokenRange := ⟨s.start, s.stop⟩

/-- The tokens between the delimiters. -/
def interior (s : Scope) : TokenRange := ⟨s.start + 1, s.stop - 1⟩

end Scope

/-- What is asked of a scope. -/
structure ScopeShape where
  rule : ScopeRule
  opening : Boundary
  closing : Boundary
  /-- Whether the opener may occur again outside brackets. -/
  repeats : Bool
deriving DecidableEq

/-- What becomes of a walk at a token. -/
inductive ScopeStep where
  | closed
  | next (pending : List Token)
  | failed (e : ScopeError)
deriving DecidableEq

namespace ScopeShape

/-- The error of a cause at a token. -/
def errorAt (shape : ScopeShape) (cause : ScopeCause) (t : Token) : ScopeError :=
  ⟨shape.rule, cause, .ofToken t⟩

/-- A closing bracket pops the innermost open one, which has to be of its kind. -/
def stepCloser
    (shape : ScopeShape) (opener : Token) (pending : List Token) (t : Token) (b : Bracket) :
    ScopeStep :=
  match pending with
  | [] => .failed (shape.errorAt (.mismatched (.ofToken opener)) t)
  | top :: below =>
      if top.kind.opens = some b then .next below
      else if shape.closing.admits t then
        .failed (shape.errorAt (.unclosedInner (.ofToken top)) t)
      else .failed (shape.errorAt (.mismatched (.ofToken top)) t)

/-- What a token does to a scope with the given brackets open. -/
def step (shape : ScopeShape) (opener : Token) (pending : List Token) (t : Token) : ScopeStep :=
  if pending.isEmpty && shape.closing.admits t then .closed
  else if t.kind.opens.isSome then .next (t :: pending)
  else match t.kind.closes with
    | some b => shape.stepCloser opener pending t b
    | none =>
        if pending.isEmpty && !shape.repeats && shape.opening.admits t then
          .failed (shape.errorAt (.repeatedOpener (.ofToken opener)) t)
        else .next pending

/-- The error of a scope whose tokens run out. -/
def unterminated (shape : ScopeShape) (opener : Token) : ScopeError :=
  shape.errorAt (.unterminated shape.closing.describe) opener

/-- The index after the closing token, sought among the next `steps` tokens. -/
def walk (shape : ScopeShape) (tokens : Array Token) (opener : Token) :
    (steps index : Nat) → (pending : List Token) → Except ScopeError Nat
  | 0, _, _ => .error (shape.unterminated opener)
  | steps + 1, index, pending =>
      match tokens[index]? with
      | none => .error (shape.unterminated opener)
      | some t =>
          match shape.step opener pending t with
          | .closed => .ok (index + 1)
          | .next pending => walk shape tokens opener steps (index + 1) pending
          | .failed e => .error e

/-- A walk that closes has passed at least one token and no more than its steps. -/
theorem walk_bounds
    (shape : ScopeShape) (tokens : Array Token) (opener : Token)
    (steps index : Nat) (pending : List Token) (after : Nat)
    (hwalk : shape.walk tokens opener steps index pending = .ok after) :
    index < after ∧ after ≤ index + steps ∧ after ≤ tokens.size := by
  induction steps generalizing index pending with
  | zero => simp [walk] at hwalk
  | succ steps ih =>
      rw [walk] at hwalk
      split at hwalk
      · simp at hwalk
      · rename_i t ht
        have hsize : index < tokens.size := (Array.getElem?_eq_some_iff.mp ht).1
        split at hwalk
        · simp only [Except.ok.injEq] at hwalk
          omega
        · have := ih _ _ hwalk
          omega
        · simp at hwalk

/-- The brackets that are open after the opener: a statement may start with a bracket. -/
def initial (shape : ScopeShape) (opener : Token) : List Token :=
  if shape.rule.isStatement && opener.kind.opens.isSome then [opener] else []

/-- The error of a range that does not start with an opener. -/
def notAnOpener (shape : ScopeShape) (tokens : Array Token) (index : Nat) : ScopeError :=
  ⟨shape.rule, .notAnOpener shape.opening.describe, .ofIndex tokens index⟩

/-- The scope of this shape that starts with the first token of the range and ends within it. -/
def resolve (shape : ScopeShape) (tokens : Array Token) (range : TokenRange) :
    Except ScopeError Scope :=
  let stop := min range.stop tokens.size
  match tokens[range.start]? with
  | some opener =>
      if range.start < stop && shape.opening.admits opener then
        match shape.walk tokens opener (stop - (range.start + 1)) (range.start + 1)
            (shape.initial opener) with
        | .ok after => .ok ⟨range.start, after⟩
        | .error e => .error e
      else .error (shape.notAnOpener tokens range.start)
  | none => .error (shape.notAnOpener tokens range.start)

/-- A resolved scope starts where the range does, has an opener and a closer and stays within the
range and the tokens. -/
theorem resolve_bounds
    (shape : ScopeShape) (tokens : Array Token) (range : TokenRange) (s : Scope)
    (hresolve : shape.resolve tokens range = .ok s) :
    s.start = range.start ∧ s.start + 2 ≤ s.stop ∧ s.stop ≤ min range.stop tokens.size := by
  unfold resolve at hresolve
  dsimp only at hresolve
  split at hresolve
  · split at hresolve
    · rename_i hopen
      split at hresolve
      · rename_i after hwalk
        have := shape.walk_bounds _ _ _ _ _ _ hwalk
        simp only [Bool.and_eq_true, decide_eq_true_eq] at hopen
        simp only [Except.ok.injEq] at hresolve
        subst hresolve
        dsimp only
        omega
      · simp at hresolve
    · simp at hresolve
  · simp at hresolve

/-- The shape of a bracket pair. -/
def bracket (b : Bracket) : ScopeShape := ⟨.bracket b, .mark b.opening, .mark b.closing, false⟩

/-- The shape of a statement that may not start again before it ended. -/
def statement (opening closing : Boundary) : ScopeShape := ⟨.statement, opening, closing, false⟩

/-- The shape of a statement whose opener may occur again. -/
def openStatement (opening closing : Boundary) : ScopeShape :=
  ⟨.openStatement, opening, closing, true⟩

end ScopeShape

namespace Scope

/-- The scope of a bracket pair that opens at the start of the range. -/
def matching (tokens : Array Token) (range : TokenRange) (b : Bracket) : Except ScopeError Scope :=
  (ScopeShape.bracket b).resolve tokens range

/-- The statement that opens at the start of the range; it may not open again before it ends. -/
def statement (tokens : Array Token) (range : TokenRange) (opening closing : Boundary) :
    Except ScopeError Scope :=
  (ScopeShape.statement opening closing).resolve tokens range

/-- The statement at the start of the range, in which the opener may occur again. -/
def openStatement (tokens : Array Token) (range : TokenRange) (opening closing : Boundary) :
    Except ScopeError Scope :=
  (ScopeShape.openStatement opening closing).resolve tokens range

end Scope

end ExprFront
