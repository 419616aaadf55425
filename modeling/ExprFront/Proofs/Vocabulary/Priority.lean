import ExprFront.Tree.Kind
import Mathlib.Tactic.ByContra

/-!
# Priorities and places of operations

What the tables fix once and for all: how the priorities are spread over the
operations, which priorities group from the right, and that the place in which
an operator stands decides the fixity and the number of operands of what it
denotes there.
-/

namespace ExprFront

namespace Operation

/-- Exactly the assignments and the operations before an operand group from the right. -/
theorem associativity_eq_right_iff
    (op : Operation) :
    op.associativity = .right ↔
      op.priority = assignmentPriority ∨ op.priority = beforePriority := by
  cases op <;> decide

/-- Member access is alone at its priority. -/
theorem priority_eq_memberAccessPriority_iff
    (op : Operation) : op.priority = memberAccessPriority ↔ op = .memberAccess := by
  cases op <;> decide

/-- No operation binds more tightly than member access. -/
theorem priority_le_memberAccessPriority
    (op : Operation) : op.priority ≤ memberAccessPriority := by
  cases op <;> decide

/-- Every operation has a priority above zero. -/
theorem priority_ne_zero
    (op : Operation) : op.priority ≠ 0 := by
  cases op <;> decide

/-- Between operands, all but member access binds less tightly than what stands before one. -/
theorem priority_lt_beforePriority
    {op : Operation} (hbetween : op.entry.fixity = .between) (hop : op ≠ .memberAccess) :
    op.priority < beforePriority := by
  cases op <;> first | decide | contradiction

/-- Operations of one priority agree on whether they group from the right. -/
theorem associativity_eq_right_of_priority_eq
    {op other : Operation} (hpriority : op.priority = other.priority)
    (hright : op.associativity = .right) : other.associativity = .right := by
  rw [associativity_eq_right_iff] at *
  rwa [← hpriority]

/-- The least priority of what the right operand of an operation may hold. -/
def rightLeast (op : Operation) : Nat :=
  if op.associativity = .right then op.priority else op.priority + 1

theorem rightLeast_of_right
    {op : Operation} (hright : op.associativity = .right) : op.rightLeast = op.priority := by
  simp [rightLeast, hright]

theorem rightLeast_of_ne_right
    {op : Operation} (hright : op.associativity ≠ .right) :
    op.rightLeast = op.priority + 1 := by
  simp [rightLeast, hright]

theorem priority_le_rightLeast
    (op : Operation) : op.priority ≤ op.rightLeast := by
  unfold rightLeast
  split <;> omega

theorem rightLeast_le_succ
    (op : Operation) : op.rightLeast ≤ op.priority + 1 := by
  unfold rightLeast
  split <;> omega

@[simp] theorem priority_memberAccess : memberAccess.priority = 15 := rfl

@[simp] theorem associativity_memberAccess : memberAccess.associativity = .left := rfl

@[simp] theorem rightLeast_memberAccess : memberAccess.rightLeast = 16 := rfl

/-- All but member access leaves room for what stands before or after its right operand. -/
theorem rightLeast_le_beforePriority
    {op : Operation} (hbetween : op.entry.fixity = .between) (hop : op ≠ .memberAccess) :
    op.rightLeast ≤ beforePriority := by
  have := priority_lt_beforePriority hbetween hop
  have := op.rightLeast_le_succ
  omega

end Operation

namespace TokenKind

/-- Only an operator denotes an operation between operands. -/
theorem exists_operator_of_between
    {k : TokenKind} {op : Operation} (hbetween : k.between = some op) :
    ∃ o : Operator, k = .operator o ∧ o.between = some op := by
  cases k <;> simp_all [between, operator?]

/-- Only an operator denotes an operation before an operand. -/
theorem exists_operator_of_before
    {k : TokenKind} {op : Operation} (hbefore : k.before = some op) :
    ∃ o : Operator, k = .operator o ∧ o.before = some op := by
  cases k <;> simp_all [before, operator?]

/-- Only an operator denotes an operation after an operand. -/
theorem exists_operator_of_after
    {k : TokenKind} {op : Operation} (hafter : k.after = some op) :
    ∃ o : Operator, k = .operator o ∧ o.after = some op := by
  cases k <;> simp_all [after, operator?]

@[simp] theorem opens_operator (o : Operator) : (operator o).opens = none := rfl

@[simp] theorem closes_operator (o : Operator) : (operator o).closes = none := rfl

@[simp] theorem opens_punctuation (p : Punctuation) : (punctuation p).opens = p.opens := rfl

@[simp] theorem closes_punctuation (p : Punctuation) : (punctuation p).closes = p.closes := rfl

@[simp] theorem before_punctuation (p : Punctuation) : (punctuation p).before = none := rfl

@[simp] theorem between_punctuation (p : Punctuation) : (punctuation p).between = none := rfl

@[simp] theorem after_punctuation (p : Punctuation) : (punctuation p).after = none := rfl

theorem opens_eq_some_iff
    {k : TokenKind} {b : Bracket} : k.opens = some b ↔ k = .punctuation b.opening := by
  cases k <;> simp [opens, punctuation?, Punctuation.opens_eq_some_iff]

theorem closes_eq_some_iff
    {k : TokenKind} {b : Bracket} : k.closes = some b ↔ k = .punctuation b.closing := by
  cases k <;> simp [closes, punctuation?, Punctuation.closes_eq_some_iff]

/-- No mark both closes and opens a bracket. -/
theorem opens_eq_none_of_closes
    {k : TokenKind} {b : Bracket} (hcloses : k.closes = some b) : k.opens = none := by
  rw [closes_eq_some_iff.mp hcloses]
  cases b <;> rfl

/-- What an operator denotes between operands has two of them and stands between them. -/
theorem entry_of_between
    {k : TokenKind} {op : Operation} (hbetween : k.between = some op) :
    op.entry.fixity = .between ∧ op.operands = .two := by
  obtain ⟨o, -, ho⟩ := exists_operator_of_between hbetween
  cases o <;> cases ho <;> exact ⟨rfl, rfl⟩

/-- What an operator denotes before an operand has one. -/
theorem operands_of_before
    {k : TokenKind} {op : Operation} (hbefore : k.before = some op) : op.operands = .one := by
  obtain ⟨o, -, ho⟩ := exists_operator_of_before hbefore
  cases o <;> cases ho <;> rfl

/-- What an operator denotes after an operand has one. -/
theorem operands_of_after
    {k : TokenKind} {op : Operation} (hafter : k.after = some op) : op.operands = .one := by
  obtain ⟨o, -, ho⟩ := exists_operator_of_after hafter
  cases o <;> cases ho <;> rfl

/-- No operator stands both between operands and after one. -/
theorem after_eq_none_of_between
    {k : TokenKind} {op : Operation} (hbetween : k.between = some op) : k.after = none := by
  obtain ⟨o, rfl, ho⟩ := exists_operator_of_between hbetween
  cases o <;> cases ho <;> rfl

theorem opens_eq_none_of_between
    {k : TokenKind} {op : Operation} (hbetween : k.between = some op) : k.opens = none := by
  obtain ⟨o, rfl, -⟩ := exists_operator_of_between hbetween
  rfl

theorem opens_eq_none_of_after
    {k : TokenKind} {op : Operation} (hafter : k.after = some op) : k.opens = none := by
  obtain ⟨o, rfl, -⟩ := exists_operator_of_after hafter
  rfl

/-- A token that is an operand by itself is neither an operator nor a bracket. -/
theorem of_isOperand
    {k : TokenKind} (hoperand : k.isOperand = true) :
    k.operator? = none ∧ k.opens = none ∧ k.closes = none := by
  cases k <;> simp_all [isOperand, operator?, opens, closes, punctuation?]

theorem before_eq_none_of_isOperand
    {k : TokenKind} (hoperand : k.isOperand = true) : k.before = none := by
  simp [before, (of_isOperand hoperand).1]

end TokenKind

namespace NodeKind

/-- The leaf kind of a token has no children. -/
theorem arity_of_ofToken?
    {k : TokenKind} {kind : NodeKind} (hleaf : ofToken? k = some kind) : kind.arity = .leaf := by
  cases k <;> cases hleaf <;> rfl

theorem isOperand_of_ofToken?
    {k : TokenKind} {kind : NodeKind} (hleaf : ofToken? k = some kind) : k.isOperand = true := by
  rw [← ofToken?_isSome, hleaf]
  rfl

end NodeKind

end ExprFront
