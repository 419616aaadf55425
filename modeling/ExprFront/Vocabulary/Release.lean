/-!
# Releases of the language

Every vocabulary item records the release of the language that introduced it
and how settled it is. Both are documentation: no recogniser consults them.
-/

namespace ExprFront

/-- The release of the language in which an item appeared. -/
structure Release where
  major : Nat
  minor : Nat
deriving DecidableEq

namespace Release

/-- The first release, in which the whole present vocabulary appeared. -/
def first : Release := ⟨0, 1⟩

/-- Major and minor number with a point between them. -/
def text (r : Release) : String :=
  toString r.major ++ "." ++ toString r.minor

end Release

/-- How settled a vocabulary item is. -/
inductive Stability where
  | stable
  | draft
  | deprecated
deriving DecidableEq

/-- The name under which a stability is listed. -/
def Stability.label : Stability → String
  | .stable => "Stable"
  | .draft => "Draft"
  | .deprecated => "Deprecated"

end ExprFront
