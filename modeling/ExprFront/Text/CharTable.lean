/-!
# Tables of characters

A class of characters is given by the ranges of code points that it fills.
-/

namespace ExprFront.Text

/-- A class of characters, as ranges of code points with both ends included. -/
abbrev CharTable := List (Nat × Nat)

/-- Whether the character lies in one of the ranges. -/
def CharTable.holds (table : CharTable) (c : Char) : Bool :=
  table.any fun range => range.1 ≤ c.toNat && c.toNat ≤ range.2

theorem CharTable.holds_iff
    {table : CharTable} {c : Char} :
    table.holds c = true ↔ ∃ range ∈ table, range.1 ≤ c.toNat ∧ c.toNat ≤ range.2 := by
  simp [holds]

end ExprFront.Text
