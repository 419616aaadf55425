import ExprFront.Proofs.Phrase.Basic

/-!
# The order of operations in a phrase

Tokens alone do not say which operand belongs to which operation; priorities
and associativities do. `Phrase.Ordered` states the rules as conditions on the
operands of each operation.

Read from left to right, an operation takes its right operand up to the first
token that does not bind tightly enough. The operations that still wait for the
end of their right operand when a phrase ends form its `Phrase.spine`; a token
that follows the phrase has to be too loose for every one of them. In the other
direction, `Phrase.Fits` says that everything on the left edge of a phrase binds
at least as tightly as a given priority.
-/

namespace ExprFront

namespace Phrase

/-! ## The rules -/

/-- The operation between the two operands of the whole phrase. -/
def joint? : Phrase → Option Operation
  | between _ op _ => some op
  | _ => none

/-- Whether the whole phrase is an operation after an operand. -/
def isAfter : Phrase → Bool
  | after _ _ | applied _ _ _ => true
  | _ => false

/-- Whether the last operand of the phrase, or the phrase itself, is an operation before an
operand. -/
def endsInBefore : Phrase → Bool
  | before _ _ => true
  | between _ _ right => right.endsInBefore
  | _ => false

/-- A left operand binds more tightly than its operation, or as tightly if both group from the
left. The left operand of a member access does not end in an operation before an operand. -/
def LeftOf (op : Operation) (p : Phrase) : Prop :=
  (∀ inner, p.joint? = some inner → op.priority < inner.priority ∨
    (inner.priority = op.priority ∧ inner.associativity = .left ∧ op.associativity = .left)) ∧
    (op = .memberAccess → p.endsInBefore = false)

/-- A right operand binds more tightly than its operation, or as tightly if it groups from the
right. The right operand of a member access is no operation after an operand. -/
def RightOf (op : Operation) (p : Phrase) : Prop :=
  (∀ inner, p.joint? = some inner → op.priority < inner.priority ∨
    (inner.priority = op.priority ∧ inner.associativity = .right)) ∧
    (op = .memberAccess → p.isAfter = false)

/-- What an operation stands before is no operation between operands but a member access. -/
def FollowsBefore (p : Phrase) : Prop :=
  ∀ inner, p.joint? = some inner → inner = .memberAccess

/-- What an operation stands after is no operation between operands but a member access, and does
not end in an operation before an operand. -/
def PrecedesAfter (p : Phrase) : Prop :=
  (∀ inner, p.joint? = some inner → inner = .memberAccess) ∧ p.endsInBefore = false

mutual

/-- The operands of every operation in the phrase obey the rules. -/
def Ordered : Phrase → Prop
  | leaf _ => True
  | group _ parts => AllOrdered parts
  | before _ operand => operand.FollowsBefore ∧ operand.Ordered
  | after operand _ => operand.PrecedesAfter ∧ operand.Ordered
  | applied callee _ parts => callee.PrecedesAfter ∧ callee.Ordered ∧ AllOrdered parts
  | between left op right =>
      op.entry.fixity = .between ∧ left.LeftOf op ∧ right.RightOf op ∧ left.Ordered ∧
        right.Ordered

/-- The operands of every operation in several phrases obey the rules. -/
def AllOrdered : List Phrase → Prop
  | [] => True
  | p :: ps => p.Ordered ∧ AllOrdered ps

end

theorem allOrdered_iff
    {parts : List Phrase} : AllOrdered parts ↔ ∀ p ∈ parts, p.Ordered := by
  induction parts with
  | nil => simp [AllOrdered]
  | cons p ps ih => simp [AllOrdered, ih]

/-! ## The left edge -/

/-- Everything on the left edge of the phrase binds at least as tightly as a priority. -/
def Fits (least : Nat) : Phrase → Prop
  | between left op _ => least ≤ op.priority ∧ left.Fits least
  | after operand _ => least ≤ Operation.afterPriority ∧ operand.Fits least
  | applied callee _ _ => least ≤ Operation.afterPriority ∧ callee.Fits least
  | _ => True

/-- If the rules hold, only the outermost operation has to be compared. Member access has a
priority of its own above what stands after an operand, so that priority says nothing about the
operand of a member access. -/
theorem Ordered.fits
    {p : Phrase} (hordered : p.Ordered) {least : Nat}
    (hleast : least ≠ Operation.memberAccessPriority)
    (hjoint : ∀ op, p.joint? = some op → least ≤ op.priority)
    (hafter : p.isAfter = true → least ≤ Operation.afterPriority) : p.Fits least := by
  induction p with
  | leaf => trivial
  | group => trivial
  | before => trivial
  | after operand op ih =>
      have hle := hafter rfl
      obtain ⟨⟨hmember, -⟩, hoperand⟩ := hordered
      refine ⟨hle, ih hoperand ?_ fun _ => hle⟩
      intro inner hinner
      rw [hmember inner hinner]
      exact Nat.le_succ_of_le hle
  | applied callee b parts ih _ =>
      have hle := hafter rfl
      obtain ⟨⟨hmember, -⟩, hcallee, -⟩ := hordered
      refine ⟨hle, ih hcallee ?_ fun _ => hle⟩
      intro inner hinner
      rw [hmember inner hinner]
      exact Nat.le_succ_of_le hle
  | between left op right ih _ =>
      have hle := hjoint op rfl
      obtain ⟨-, ⟨hleft, -⟩, -, hleftOrdered, -⟩ := hordered
      refine ⟨hle, ih hleftOrdered ?_ fun _ => ?_⟩
      · intro inner hinner
        rcases hleft inner hinner with h | ⟨h, -⟩ <;> omega
      · have := op.priority_le_memberAccessPriority
        unfold Operation.memberAccessPriority at *
        unfold Operation.afterPriority
        omega

theorem fits_zero
    {p : Phrase} (hordered : p.Ordered) : p.Fits 0 :=
  hordered.fits (by decide) (fun _ _ => Nat.zero_le _) (fun _ => Nat.zero_le _)

/-- What an operation stands before fits its priority. -/
theorem FollowsBefore.fits
    {p : Phrase} (h : p.FollowsBefore) (hordered : p.Ordered) :
    p.Fits Operation.beforePriority := by
  refine hordered.fits (by decide) ?_ fun _ => by decide
  intro inner hinner
  rw [h inner hinner]
  decide

/-- A right operand fits the least priority that its operation asks for. -/
theorem RightOf.fits
    {op : Operation} {p : Phrase} (h : p.RightOf op) (hbetween : op.entry.fixity = .between)
    (hordered : p.Ordered) : p.Fits op.rightLeast := by
  have hjoint : ∀ inner, p.joint? = some inner → op.rightLeast ≤ inner.priority := by
    intro inner hinner
    rcases h.1 inner hinner with hlt | ⟨heq, hright⟩
    · have := op.rightLeast_le_succ
      omega
    · have hop := Operation.associativity_eq_right_of_priority_eq heq hright
      have hleast := Operation.rightLeast_of_right hop
      omega
  by_cases hop : op = .memberAccess
  · apply hordered.fits (by simp [hop, Operation.memberAccessPriority]) hjoint
    intro hafter
    simp [h.2 hop] at hafter
  · have hle := Operation.rightLeast_le_beforePriority hbetween hop
    unfold Operation.beforePriority at hle
    refine hordered.fits ?_ hjoint fun _ => ?_
    · unfold Operation.memberAccessPriority
      omega
    · unfold Operation.afterPriority
      omega

end Phrase

/-! ## The right edge -/

/-- An operation that waits for its right operand, with its left operand if it has one. -/
inductive Frame where
  | before (op : Operation)
  | between (left : Phrase) (op : Operation)

namespace Frame

/-- The priority of the waiting operation. -/
def priority : Frame → Nat
  | before _ => Operation.beforePriority
  | between _ op => op.priority

/-- How chains of the waiting operation group. -/
def associativity : Frame → Associativity
  | before _ => .right
  | between _ op => op.associativity

/-- The least priority of what the awaited operand may hold. -/
def least : Frame → Nat
  | before _ => Operation.beforePriority
  | between _ op => op.rightLeast

/-- The waiting operation with its right operand. -/
def close : Frame → Phrase → Phrase
  | before op, operand => .before op operand
  | between left op, right => .between left op right

/-- The operation that follows ends the awaited operand: it binds less tightly, or as tightly and
both group from the left. -/
def ClosedBy (op : Operation) (f : Frame) : Prop :=
  op.priority < f.priority ∨
    (f.priority = op.priority ∧ f.associativity = .left ∧ op.associativity = .left)

theorem priority_le_least
    (f : Frame) : f.priority ≤ f.least := by
  cases f with
  | before => exact Nat.le_refl _
  | between left op => exact op.priority_le_rightLeast

theorem ClosedBy.lt_least
    {op : Operation} {f : Frame} (h : f.ClosedBy op) : op.priority < f.least := by
  cases f with
  | before =>
      rcases h with h | ⟨-, h, -⟩
      · exact h
      · simp [associativity] at h
  | between left inner =>
      rcases h with h | ⟨heq, hleft, -⟩
      · exact Nat.lt_of_lt_of_le h inner.priority_le_rightLeast
      · have hinner : inner.associativity ≠ .right := by
          simp [associativity] at hleft
          simp [hleft]
        simp only [priority] at heq
        simp only [least, Operation.rightLeast_of_ne_right hinner]
        omega

end Frame

namespace Phrase

/-- The operations that wait for the end of their right operand when the phrase ends, the
innermost first. -/
def spine : Phrase → List Frame
  | before op operand => operand.spine ++ [.before op]
  | between left op right => right.spine ++ [.between left op]
  | _ => []

/-- The last operand of the phrase, which no operation of the spine belongs to. -/
def tip : Phrase → Phrase
  | before _ operand => operand.tip
  | between _ _ right => right.tip
  | p => p

/-- A phrase is its last operand with the operations of its spine closed over it. -/
theorem foldl_close_spine
    (p : Phrase) : p.spine.foldl (fun operand f => f.close operand) p.tip = p := by
  induction p with
  | leaf => rfl
  | group => rfl
  | before op operand ih =>
      rw [spine, tip, List.foldl_append, ih]
      rfl
  | after => rfl
  | applied => rfl
  | between left op right _ ih =>
      rw [spine, tip, List.foldl_append, ih]
      rfl

/-- A phrase that ends in an operation before an operand has that operation on its spine. -/
theorem exists_before_mem_spine
    {p : Phrase} (hends : p.endsInBefore = true) : ∃ op, Frame.before op ∈ p.spine := by
  induction p with
  | leaf => simp [endsInBefore] at hends
  | group => simp [endsInBefore] at hends
  | before op operand _ => exact ⟨op, by simp [spine]⟩
  | after => simp [endsInBefore] at hends
  | applied => simp [endsInBefore] at hends
  | between left op right _ ih =>
      obtain ⟨inner, hinner⟩ := ih hends
      exact ⟨inner, by simp [spine, hinner]⟩

/-- The operation between the two operands of a phrase is on its spine. -/
theorem exists_between_mem_spine
    {p : Phrase} {op : Operation} (hjoint : p.joint? = some op) :
    ∃ left, Frame.between left op ∈ p.spine := by
  cases p with
  | between left inner right =>
      cases hjoint
      exact ⟨left, by simp [spine]⟩
  | leaf | group | before | after | applied => simp [joint?] at hjoint

/-- No operation on the spine binds less tightly than the outermost one, or than what stands
before an operand. -/
theorem Ordered.priority_of_mem_spine
    {p : Phrase} (hordered : p.Ordered) {f : Frame} (hf : f ∈ p.spine) :
    Operation.beforePriority ≤ f.priority ∨
      ∃ op, p.joint? = some op ∧ (op.priority < f.priority ∨
        (f.priority = op.priority ∧ f.associativity = op.associativity)) := by
  induction p with
  | leaf => simp [spine] at hf
  | group => simp [spine] at hf
  | after => simp [spine] at hf
  | applied => simp [spine] at hf
  | before op operand ih =>
      apply Or.inl
      rcases List.mem_append.mp hf with hf | hf
      · rcases ih hordered.2 hf with h | ⟨inner, hinner, h⟩
        · exact h
        · obtain rfl := hordered.1 inner hinner
          have hle : Operation.beforePriority ≤ Operation.memberAccess.priority := by decide
          rcases h with h | ⟨h, -⟩ <;> omega
      · obtain rfl := List.mem_singleton.mp hf
        exact Nat.le_refl _
  | between left op right _ ih =>
      obtain ⟨-, -, ⟨hright, -⟩, -, hrightOrdered⟩ := hordered
      rcases List.mem_append.mp hf with hf | hf
      · rcases ih hrightOrdered hf with h | ⟨inner, hinner, h⟩
        · exact Or.inl h
        · refine Or.inr ⟨op, rfl, ?_⟩
          rcases hright inner hinner with hlt | ⟨heq, hinnerRight⟩
          · apply Or.inl
            rcases h with h | ⟨h, -⟩ <;> omega
          · have hopRight := Operation.associativity_eq_right_of_priority_eq heq hinnerRight
            rcases h with h | ⟨h, hassoc⟩
            · exact Or.inl (by omega)
            · exact Or.inr ⟨by omega, by rw [hassoc, hinnerRight, hopRight]⟩
      · obtain rfl := List.mem_singleton.mp hf
        exact Or.inr ⟨op, rfl, Or.inr ⟨rfl, rfl⟩⟩

/-- A phrase that is no operation between operands and does not end in one before an operand
leaves nothing waiting. -/
theorem spine_eq_nil
    {p : Phrase} (hjoint : p.joint? = none) (hends : p.endsInBefore = false) : p.spine = [] := by
  cases p with
  | before => simp [endsInBefore] at hends
  | between => simp [joint?] at hjoint
  | leaf | group | after | applied => rfl

/-- The right operand of a member access is no operation between operands. -/
theorem RightOf.joint?_memberAccess
    {p : Phrase} (h : p.RightOf .memberAccess) : p.joint? = none := by
  cases hjoint : p.joint? with
  | none => rfl
  | some inner =>
      have hle := inner.priority_le_memberAccessPriority
      rcases h.1 inner hjoint with hlt | ⟨heq, hright⟩
      · simp only [Operation.priority_memberAccess] at hlt
        unfold Operation.memberAccessPriority at hle
        omega
      · obtain rfl := (Operation.priority_eq_memberAccessPriority_iff inner).mp heq
        simp at hright

/-- Only member accesses wait at the end of what an operation stands after. -/
theorem PrecedesAfter.eq_of_mem_spine
    {p : Phrase} (h : p.PrecedesAfter) (hordered : p.Ordered) {f : Frame} (hf : f ∈ p.spine) :
    ∃ left, f = .between left .memberAccess := by
  cases p with
  | leaf | group | after | applied => simp [spine] at hf
  | before => simp [PrecedesAfter, endsInBefore] at h
  | between left op right =>
      obtain rfl := h.1 op rfl
      obtain ⟨-, -, hright, -, -⟩ := hordered
      have hnil : right.spine = [] := spine_eq_nil hright.joint?_memberAccess h.2
      rw [spine, hnil] at hf
      exact ⟨left, by simpa using hf⟩

/-- The left operand of a member access is like the operand of what stands after it. -/
theorem LeftOf.precedesAfter
    {p : Phrase} (h : p.LeftOf .memberAccess) : p.PrecedesAfter := by
  refine ⟨fun inner hinner => ?_, h.2 rfl⟩
  have hle := inner.priority_le_memberAccessPriority
  rcases h.1 inner hinner with hlt | ⟨heq, -⟩
  · simp only [Operation.priority_memberAccess] at hlt
    unfold Operation.memberAccessPriority at hle
    omega
  · exact (Operation.priority_eq_memberAccessPriority_iff inner).mp heq

/-- An operation ends everything that waits at the end of its left operand. -/
theorem LeftOf.closedBy_of_mem_spine
    {op : Operation} {p : Phrase} (h : p.LeftOf op) (hbetween : op.entry.fixity = .between)
    (hordered : p.Ordered) {f : Frame} (hf : f ∈ p.spine) : f.ClosedBy op := by
  by_cases hop : op = .memberAccess
  · subst hop
    obtain ⟨left, rfl⟩ := h.precedesAfter.eq_of_mem_spine hordered hf
    exact Or.inr ⟨rfl, rfl, rfl⟩
  · have hlt := Operation.priority_lt_beforePriority hbetween hop
    rcases hordered.priority_of_mem_spine hf with hle | ⟨inner, hinner, hle⟩
    · exact Or.inl (by omega)
    · rcases h.1 inner hinner with hinnerLt | ⟨heq, hinnerLeft, hopLeft⟩
      · apply Or.inl
        rcases hle with hle | ⟨hle, -⟩ <;> omega
      · rcases hle with hle | ⟨hle, hassoc⟩
        · exact Or.inl (by omega)
        · exact Or.inr ⟨by omega, by rw [hassoc, hinnerLeft], hopLeft⟩

/-- Conversely, an operation that ends everything that waits at the end of a phrase takes the
phrase as its left operand. -/
theorem leftOf_of_closedBy
    {op : Operation} {p : Phrase} (hspine : ∀ f ∈ p.spine, f.ClosedBy op) : p.LeftOf op := by
  refine ⟨fun inner hinner => ?_, fun hop => ?_⟩
  · obtain ⟨left, hmem⟩ := exists_between_mem_spine hinner
    exact hspine _ hmem
  · subst hop
    by_contra hends
    obtain ⟨inner, hmem⟩ := exists_before_mem_spine (Bool.of_not_eq_false hends)
    have hlt : Operation.memberAccess.priority < Operation.beforePriority :=
      (hspine _ hmem).lt_least
    exact absurd hlt (by decide)

/-! ## Chains -/

/-- The operation between operands that was read last on the top level of the phrase, before what
stands after all of it. -/
def last? : Phrase → Option Operation
  | between _ op _ => some op
  | after operand _ => operand.last?
  | applied callee _ _ => callee.last?
  | _ => none

/-- What stands after an operand can only have followed a member access. -/
theorem PrecedesAfter.last?_eq
    {p : Phrase} (h : p.PrecedesAfter) (hordered : p.Ordered) :
    p.last? = none ∨ p.last? = some .memberAccess := by
  induction p with
  | leaf => exact Or.inl rfl
  | group => exact Or.inl rfl
  | before => exact Or.inl rfl
  | after operand op ih => exact ih hordered.1 hordered.2
  | applied callee b parts ih _ => exact ih hordered.1 hordered.2.1
  | between left op right _ _ => exact Or.inr (congrArg some (h.1 op rfl))

/-- A member access clashes with nothing. -/
theorem clashes_memberAccess
    (op : Operation) : Reading.clashes (some .memberAccess) op = false := by
  cases op <;> rfl

/-- An operation may follow its left operand. -/
theorem LeftOf.clashes_eq_false
    {op : Operation} {p : Phrase} (h : p.LeftOf op) (hordered : p.Ordered) :
    Reading.clashes p.last? op = false := by
  have hafter : ∀ q : Phrase, q.PrecedesAfter → q.Ordered →
      Reading.clashes q.last? op = false := by
    intro q hq hqOrdered
    rcases hq.last?_eq hqOrdered with hlast | hlast
    · rw [hlast]
      rfl
    · rw [hlast]
      exact clashes_memberAccess op
  cases p with
  | leaf | group | before => rfl
  | after operand _ => exact hafter operand hordered.1 hordered.2
  | applied callee _ _ => exact hafter callee hordered.1 hordered.2.1
  | between left inner right =>
      rcases h.1 inner rfl with hlt | ⟨-, hinner, hop⟩
      · have : inner.priority ≠ op.priority := by omega
        simp [last?, Reading.clashes, this]
      · simp [last?, Reading.clashes, hinner, hop]

/-- Conversely, an operation that may follow a phrase and ends everything that waits there takes
the phrase as its left operand. -/
theorem leftOf_of_lt_least
    {op : Operation} {p : Phrase} (hspine : ∀ f ∈ p.spine, op.priority < f.least)
    (hclashes : Reading.clashes p.last? op = false) : p.LeftOf op := by
  refine ⟨fun inner hinner => ?_, fun hop => ?_⟩
  · obtain ⟨left, hmem⟩ := exists_between_mem_spine hinner
    have hlt : op.priority < inner.rightLeast := hspine _ hmem
    have hle := inner.rightLeast_le_succ
    by_cases heq : inner.priority = op.priority
    · have hinnerRight : inner.associativity ≠ .right := by
        intro hright
        rw [Operation.rightLeast_of_right hright] at hlt
        omega
      have hopRight : op.associativity ≠ .right := fun hright =>
        hinnerRight (Operation.associativity_eq_right_of_priority_eq heq.symm hright)
      have hlast : p.last? = some inner := by
        cases p <;> simp_all [joint?, last?]
      rw [hlast] at hclashes
      refine Or.inr ⟨heq, ?_, ?_⟩
      · cases hassoc : inner.associativity <;> simp_all [Reading.clashes]
      · cases hassoc : op.associativity <;> simp_all [Reading.clashes]
    · exact Or.inl (by omega)
  · subst hop
    by_contra hends
    obtain ⟨inner, hmem⟩ := exists_before_mem_spine (Bool.of_not_eq_false hends)
    have hlt : Operation.memberAccess.priority < Operation.beforePriority := hspine _ hmem
    exact absurd hlt (by decide)

/-- A phrase fits the least priority of an operation only if it may be its right operand. -/
theorem Fits.rightOf
    {op : Operation} {p : Phrase} (h : p.Fits op.rightLeast) : p.RightOf op := by
  refine ⟨fun inner hinner => ?_, fun hop => ?_⟩
  · cases p with
    | between left joint right =>
        cases hinner
        have hle : op.rightLeast ≤ inner.priority := h.1
        by_cases hright : op.associativity = .right
        · rw [Operation.rightLeast_of_right hright] at hle
          by_cases heq : op.priority = inner.priority
          · exact Or.inr ⟨heq.symm,
              Operation.associativity_eq_right_of_priority_eq heq hright⟩
          · exact Or.inl (by omega)
        · rw [Operation.rightLeast_of_ne_right hright] at hle
          exact Or.inl (by omega)
    | leaf | group | before | after | applied => simp [joint?] at hinner
  · subst hop
    cases p with
    | after => exact absurd h.1 (by decide)
    | applied => exact absurd h.1 (by decide)
    | leaf | group | before | between => rfl

/-- A phrase fits the priority of what stands before an operand only if it may follow it. -/
theorem Fits.followsBefore
    {p : Phrase} (h : p.Fits Operation.beforePriority) (hordered : p.Ordered) :
    p.FollowsBefore := by
  intro inner hinner
  cases p with
  | between left joint right =>
      cases hinner
      have hle : Operation.beforePriority ≤ inner.priority := h.1
      by_contra hop
      have := Operation.priority_lt_beforePriority hordered.1 hop
      omega
  | leaf | group | before | after | applied => simp [joint?] at hinner

/-- An operation may stand after a phrase at whose end nothing waits but what binds more
tightly. -/
theorem precedesAfter_of_lt_least
    {p : Phrase} (hordered : p.Ordered)
    (hspine : ∀ f ∈ p.spine, Operation.afterPriority < f.least) : p.PrecedesAfter := by
  refine ⟨fun inner hinner => ?_, ?_⟩
  · obtain ⟨left, hmem⟩ := exists_between_mem_spine hinner
    have hlt : Operation.afterPriority < inner.rightLeast := hspine _ hmem
    have hbetween : inner.entry.fixity = .between := by
      cases p with
      | between => cases hinner; exact hordered.1
      | leaf | group | before | after | applied => simp [joint?] at hinner
    by_contra hop
    have hle := Operation.rightLeast_le_beforePriority hbetween hop
    unfold Operation.afterPriority at hlt
    unfold Operation.beforePriority at hle
    omega
  · by_contra hends
    obtain ⟨inner, hmem⟩ := exists_before_mem_spine (Bool.of_not_eq_false hends)
    have hlt : Operation.afterPriority < Operation.beforePriority := hspine _ hmem
    exact absurd hlt (by decide)

end Phrase

end ExprFront
