import ExprFront.Literal
import ExprFront.Proofs.Token.Grammar
import Mathlib.Data.Nat.Digits.Defs

/-!
# Decimal numbers

A run of digits denotes a number, whatever its length and however many zeros it
starts with. Reading it finds that number, and a bound is compared with the number
and not with the text.
-/

namespace ExprFront

namespace Decimal

variable {digits : List Char}

/-- The number that a run of digits denotes in base ten. -/
def value (digits : List Char) : Nat :=
  Nat.ofDigits 10 (digits.reverse.map fun c => c.toNat - '0'.toNat)

theorem value_nil : value [] = 0 := rfl

theorem value_cons
    (c : Char) (digits : List Char) :
    value (c :: digits) = value digits + 10 ^ digits.length * (c.toNat - '0'.toNat) := by
  rw [value, List.reverse_cons, List.map_append, Nat.ofDigits_append, List.length_map,
    List.length_reverse, List.map_singleton, Nat.ofDigits_singleton, value]

/-- Zeros in front do not count. -/
theorem value_zero_cons
    (digits : List Char) : value ('0' :: digits) = value digits := by
  rw [value_cons, Nat.sub_self, Nat.mul_zero, Nat.add_zero]

/-! ## Runs of digits are read -/

theorem readDigits?_eq
    (h : ∀ d ∈ digits, d.isDigit = true) (acc : Nat) :
    readDigits? acc digits = some (10 ^ digits.length * acc + value digits) := by
  induction digits generalizing acc with
  | nil => simp [readDigits?, value_nil]
  | cons c digits ih =>
      obtain ⟨hc, hdigits⟩ := List.forall_mem_cons.mp h
      rw [readDigits?, digit?, if_pos hc]
      refine (ih hdigits _).trans (congrArg some ?_)
      rw [value_cons, List.length_cons]
      ring

theorem readNat?_eq
    (h : IsDigits digits) : readNat? digits = some (value digits) := by
  cases digits with
  | nil => exact absurd rfl h.1
  | cons c digits =>
      rw [readNat?, readDigits?_eq h.2, Nat.mul_zero, Nat.zero_add]

/-- A digit is no sign. -/
theorem exists_cons_of_isDigits
    (h : IsDigits digits) : ∃ c more, digits = c :: more ∧ c ≠ '+' ∧ c ≠ '-' := by
  cases digits with
  | nil => exact absurd rfl h.1
  | cons c more =>
      have hc : c.isDigit = true := h.2 c List.mem_cons_self
      refine ⟨c, more, rfl, ?_, ?_⟩
      · rintro rfl
        cases hc
      · rintro rfl
        cases hc

/-- Digits are read up to the bound, and the number is the one that they denote. -/
theorem readUnsigned?_eq
    (h : IsDigits digits) (bound : Nat) :
    readUnsigned? bound digits = if value digits ≤ bound then some (value digits) else none := by
  have hread := readNat?_eq h
  obtain ⟨c, more, rfl, hplus, -⟩ := exists_cons_of_isDigits h
  unfold readUnsigned?
  split
  · rename_i hsign
    cases hsign
    exact absurd rfl hplus
  · simp only [hread]

theorem readSign?_eq
    (h : IsDigits digits) : readSign? digits = some (value digits : Int) := by
  have hread := readNat?_eq h
  obtain ⟨c, more, rfl, hplus, hminus⟩ := exists_cons_of_isDigits h
  unfold readSign?
  split
  · rename_i hsign
    cases hsign
    exact absurd rfl hminus
  · rename_i hsign
    cases hsign
    exact absurd rfl hplus
  · rw [hread]
    rfl

/-- Without a sign, only the upper bound of the integers matters. -/
theorem readInt?_eq
    (h : IsDigits digits) :
    readInt? digits = if value digits ≤ maxInt then some (value digits : Int) else none := by
  rw [readInt?, readSigned?, readSign?_eq h]
  have hlow : -(maxInt : Int) - 1 ≤ value digits := by omega
  simp only [hlow, true_and, Nat.cast_le]

end Decimal

end ExprFront
