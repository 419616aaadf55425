import ExprFront.Scope.Basic

/-!
# Separated scopes

The interior of a bracket scope is split at the separators that stand outside
its inner brackets. An empty interior has no parts; elsewhere there is one part
more than there are separators, and a part may be empty.
-/

namespace ExprFront

/-- A bracket scope with the parts of its interior. -/
structure Separated where
  scope : Scope
  parts : List TokenRange
deriving DecidableEq

/-- The parts of the tokens up to `stop`, of which the first part started at `first` and the walk
has reached `index`. An inner bracket scope is passed over in one step. -/
def splitFrom (tokens : Array Token) (separator : Punctuation) (stop : Nat) :
    (steps first index : Nat) → Except ScopeError (List TokenRange)
  | 0, first, _ => .ok [⟨first, stop⟩]
  | steps + 1, first, index =>
      if stop ≤ index then .ok [⟨first, stop⟩]
      else match tokens[index]? with
        | none => .ok [⟨first, stop⟩]
        | some t =>
            match t.kind.opens with
            | some b =>
                match Scope.matching tokens ⟨index, stop⟩ b with
                | .ok inner => splitFrom tokens separator stop steps first inner.stop
                | .error e => .error e
            | none =>
                if t.isPunctuation separator then
                  match splitFrom tokens separator stop steps (index + 1) (index + 1) with
                  | .ok parts => .ok (⟨first, index⟩ :: parts)
                  | .error e => .error e
                else splitFrom tokens separator stop steps first (index + 1)

/-- The parts of a range, split at the separators outside brackets. -/
def splitParts (tokens : Array Token) (interior : TokenRange) (separator : Punctuation) :
    Except ScopeError (List TokenRange) :=
  if interior.isEmpty then .ok []
  else splitFrom tokens separator interior.stop interior.length interior.start interior.start

/-- The bracket scope at the start of the range together with its parts. -/
def Separated.resolve
    (tokens : Array Token) (range : TokenRange) (b : Bracket) (separator : Punctuation) :
    Except ScopeError Separated :=
  match Scope.matching tokens range b with
  | .ok scope =>
      match splitParts tokens scope.interior separator with
      | .ok parts => .ok ⟨scope, parts⟩
      | .error e => .error e
  | .error e => .error e

end ExprFront
