import ExprFront.Grouping.Basic
import ExprFront.Proofs.Refusal
import ExprFront.Proofs.Scope.Bounds

/-!
# Grouping without faults

Whatever the tokens are, an expression that lies within them is grouped or
refused. The result only grows, so the place where an operand or an open
application starts stays within it while parentheses are inserted; and the
sentinel stays at the bottom of the stack, because closing stops above it.
-/

namespace ExprFront

namespace Grouping

variable {tokens : Array Token}

theorem isRefusal_misplaced
    (tokens : Array Token) (kind : Misplacement) (index : Nat) :
    (misplaced tokens kind index).IsRefusal :=
  isRefusal_misplacedAt _ _ _ _

/-! ## Emitted tokens -/

theorem meets_take
    {index : Nat} (hindex : index < tokens.size) (out : Array GroupedToken) :
    Meets (fun result => out.size < result.size) (take tokens index out) := by
  simp [take, hindex, Meets]

theorem meets_parenthesize
    {start anchor : Nat} {out : Array GroupedToken} (hstart : start < out.size)
    (hanchor : anchor < tokens.size) :
    Meets (fun result => out.size < result.size) (parenthesize tokens start anchor out) := by
  simp only [parenthesize, Array.getElem?_eq_getElem hstart, Array.getElem?_eq_getElem hanchor,
    Meets, Array.insertIdxIfInBounds, dif_pos (Nat.le_of_lt hstart), Array.size_push,
    Array.size_insertIdx]
  omega

/-- Within the tokens, parts are grouped without a fault and without a loss. -/
def RecurseFaultless (tokens : Array Token) (recurse : TokenRange → Emit) : Prop :=
  ∀ part out, part.stop ≤ tokens.size →
    Meets (fun result => out.size ≤ result.size) (recurse part out)

variable {recurse : TokenRange → Emit}

theorem meets_groupParts
    (hrecurse : RecurseFaultless tokens recurse) {parts : List TokenRange}
    (hparts : ∀ part ∈ parts, 0 < part.start ∧ part.start ≤ part.stop ∧ part.stop ≤ tokens.size)
    (out : Array GroupedToken) :
    Meets (fun result => out.size ≤ result.size) (groupParts tokens recurse parts out) := by
  induction parts generalizing out with
  | nil => exact Nat.le_refl _
  | cons part parts ih =>
      obtain ⟨hpart, hmore⟩ := List.forall_mem_cons.mp hparts
      refine (meets_take (by omega) out).bind fun comma hcomma => ?_
      refine (hrecurse part comma hpart.2.2).bind fun grouped hgrouped => ?_
      refine (ih hmore grouped).mono fun result hresult => ?_
      omega

/-- A bracket group is copied without a fault; its closing token is one of the tokens. -/
theorem meets_groupBrackets
    (hrecurse : RecurseFaultless tokens recurse) (opening stop : Nat) (b : Bracket)
    (out : Array GroupedToken) :
    Meets (fun result => result.1 < tokens.size ∧ out.size < result.2.size)
      (groupBrackets tokens recurse opening stop b out) := by
  unfold groupBrackets
  cases hresolve : Separated.resolve tokens ⟨opening, stop⟩ b .comma with
  | error e => exact isRefusal_scope e
  | ok separated =>
      obtain ⟨⟨hlength, hsize, hparts⟩, -, -⟩ := Separated.within_of_resolve hresolve
      have hwithin : ∀ part ∈ separated.parts,
          0 < part.start ∧ part.start ≤ part.stop ∧ part.stop ≤ tokens.size := by
        intro part hpart
        have hbounds := hparts part hpart
        omega
      refine (meets_take (by omega : separated.scope.start < _) out).bind fun first hfirst => ?_
      have hclose : ∀ inside, first.size ≤ inside.size →
          Meets (fun result => result.1 < tokens.size ∧ out.size < result.2.size)
            (do
              let last ← take tokens (separated.scope.stop - 1) inside
              return (separated.scope.stop - 1, last)) := by
        intro inside hlarger
        refine (meets_take (by omega) inside).bind fun last hlast => ?_
        exact ⟨by dsimp only; omega, by dsimp only; omega⟩
      cases hlist : separated.parts with
      | nil => exact hclose first (Nat.le_refl _)
      | cons part parts =>
          rw [hlist] at hwithin
          obtain ⟨hpart, hmore⟩ := List.forall_mem_cons.mp hwithin
          refine (hrecurse part first hpart.2.2).bind fun grouped hgrouped => ?_
          refine (meets_groupParts hrecurse hmore grouped).bind fun inside hinside => ?_
          exact hclose inside (Nat.le_trans hgrouped hinside)

/-! ## Open applications -/

/-- Above the sentinel, every open application starts within the result and has an operator. -/
def StackWithin (tokens : Array Token) (size : Nat) (stack : List OpenApplication) : Prop :=
  ∃ waiting sentinel, stack = waiting ++ [sentinel] ∧
    ∀ c ∈ waiting, c.start < size ∧ c.operator < tokens.size

theorem StackWithin.mono
    {size larger : Nat} {stack : List OpenApplication} (h : StackWithin tokens size stack)
    (hsize : size ≤ larger) : StackWithin tokens larger stack := by
  obtain ⟨waiting, sentinel, rfl, hwaiting⟩ := h
  refine ⟨waiting, sentinel, rfl, fun c hc => ?_⟩
  exact ⟨Nat.lt_of_lt_of_le (hwaiting c hc).1 hsize, (hwaiting c hc).2⟩

theorem StackWithin.push
    {size : Nat} {stack : List OpenApplication} {c : OpenApplication}
    (h : StackWithin tokens size stack) (hstart : c.start < size)
    (hoperator : c.operator < tokens.size) : StackWithin tokens size (c :: stack) := by
  obtain ⟨waiting, sentinel, rfl, hwaiting⟩ := h
  exact ⟨c :: waiting, sentinel, rfl, List.forall_mem_cons.mpr ⟨⟨hstart, hoperator⟩, hwaiting⟩⟩

/-- After an operand, its start lies within the result, which has not shrunk below a size. -/
structure Standing (tokens : Array Token) (least : Nat) (p : Progress) : Prop where
  least_le : least ≤ p.out.size
  stack : StackWithin tokens p.out.size p.stack
  operandStart_lt : p.operandStart < p.out.size

/-- A longer result keeps what has been reached. -/
theorem Standing.mono
    {least : Nat} {p : Progress} {out : Array GroupedToken} (h : Standing tokens least p)
    (hout : p.out.size ≤ out.size) (head : Nat) : Standing tokens least { p with out, head } :=
  ⟨Nat.le_trans h.least_le hout, h.stack.mono hout, Nat.lt_of_lt_of_le h.operandStart_lt hout⟩

/-- Closing stops above the sentinel. -/
theorem meets_settle
    {closes : OpenApplication → Except ParseError Bool}
    (hcloses : ∀ c, Meets (fun _ => True) (closes c)) {least operandStart : Nat}
    {stack : List OpenApplication} {out : Array GroupedToken} (hleast : least ≤ out.size)
    (hstack : StackWithin tokens out.size stack) (hoperand : operandStart < out.size) :
    Meets (fun result => least ≤ result.2.1.size ∧
        StackWithin tokens result.2.1.size result.1 ∧ result.2.2 < result.2.1.size)
      (settle tokens closes stack out operandStart) := by
  obtain ⟨waiting, sentinel, rfl, hwaiting⟩ := hstack
  induction waiting generalizing out operandStart with
  | nil => exact ⟨hleast, ⟨[], sentinel, rfl, hwaiting⟩, hoperand⟩
  | cons top waiting ih =>
      obtain ⟨htop, hmore⟩ := List.forall_mem_cons.mp hwaiting
      obtain ⟨below, rest, hbelow⟩ : ∃ below rest, waiting ++ [sentinel] = below :: rest := by
        cases waiting with
        | nil => exact ⟨_, _, rfl⟩
        | cons below rest => exact ⟨_, _, rfl⟩
      rw [List.cons_append, hbelow, settle]
      refine (hcloses top).bind fun close _ => ?_
      cases close with
      | false =>
          refine ⟨hleast, ?_, hoperand⟩
          exact ⟨top :: waiting, sentinel, by rw [List.cons_append, hbelow], hwaiting⟩
      | true =>
          refine (meets_parenthesize htop.1 htop.2).bind fun larger hlarger => ?_
          rw [← hbelow]
          refine ih (by omega) (by omega) fun c hc => ?_
          exact ⟨Nat.lt_trans (hmore c hc).1 hlarger, (hmore c hc).2⟩

theorem Standing.settle
    {least : Nat} {p : Progress} (h : Standing tokens least p)
    (closes : OpenApplication → Except ParseError Bool)
    (hcloses : ∀ c, Meets (fun _ => True) (closes c)) :
    Meets (fun settled => Standing tokens least settled ∧ settled.head = p.head)
      (p.settle tokens closes) := by
  have hsettle := meets_settle hcloses h.least_le h.stack h.operandStart_lt
  refine hsettle.bind fun result hresult => ?_
  exact ⟨⟨hresult.1, hresult.2.1, hresult.2.2⟩, rfl⟩

theorem Standing.finish
    {least : Nat} {p : Progress} (h : Standing tokens least p) :
    Meets (fun result => least ≤ result.size) (p.finish tokens) := by
  refine (h.settle (fun _ => .ok true) fun _ => trivial).bind fun settled hsettled => ?_
  exact hsettled.1.least_le

theorem meets_closedBy
    (op : Operation) (index : Nat) (c : OpenApplication) :
    Meets (fun _ => True) (closedBy tokens op index c) := by
  unfold closedBy
  split
  · exact isRefusal_misplaced _ _ _
  · trivial

/-! ## Operands and operators -/

theorem meets_requireFilled
    (opening stop : Nat) (b : Bracket) :
    Meets (fun _ => True) (requireFilled tokens opening stop b) := by
  cases b with
  | paren =>
      unfold requireFilled
      cases Scope.matching tokens ⟨opening, stop⟩ .paren with
      | error e => exact isRefusal_scope e
      | ok scope =>
          simp only [liftScope, bind, Except.bind]
          split
          · exact isRefusal_misplaced _ _ _
          · trivial
  | square => trivial
  | brace => trivial

theorem meets_operand
    (hrecurse : RecurseFaultless tokens recurse) {range : TokenRange} {least : Nat} (steps : Nat)
    {p : Progress} (hleast : least ≤ p.out.size) (hstack : StackWithin tokens p.out.size p.stack) :
    Meets (Standing tokens least) (operand tokens recurse range steps p) := by
  induction steps generalizing p with
  | zero => exact isRefusal_misplaced _ _ _
  | succ steps ih =>
      rw [operand]
      split
      · exact isRefusal_misplaced _ _ _
      split
      · exact isRefusal_misplaced _ _ _
      rename_i t htoken
      have hhead : p.head < tokens.size := (Array.getElem?_eq_some_iff.mp htoken).1
      split
      · refine (meets_take hhead p.out).bind fun out hout => ?_
        refine ih (Nat.le_trans hleast (Nat.le_of_lt hout)) ?_
        exact (hstack.mono (Nat.le_of_lt hout)).push hout hhead
      split
      · refine (meets_requireFilled _ _ _).bind fun _ _ => ?_
        refine (meets_groupBrackets hrecurse _ _ _ _).bind fun result hresult => ?_
        exact ⟨by dsimp only; omega, hstack.mono (Nat.le_of_lt hresult.2), hresult.2⟩
      split
      · refine (meets_take hhead p.out).bind fun out hout => ?_
        exact ⟨by dsimp only; omega, hstack.mono (Nat.le_of_lt hout), hout⟩
      split
      · exact isRefusal_misplaced _ _ _
      · exact isRefusal_misplaced _ _ _

theorem meets_operators
    (hrecurse : RecurseFaultless tokens recurse) {range : TokenRange} {least : Nat}
    (hrange : range.stop ≤ tokens.size) (steps : Nat) {p : Progress}
    (h : Standing tokens least p) :
    Meets (fun result => least ≤ result.size) (operators tokens recurse range steps p) := by
  induction steps generalizing p with
  | zero => exact h.finish
  | succ steps ih =>
      rw [operators]
      split
      · exact h.finish
      have hhead : p.head < tokens.size := by omega
      rw [Array.getElem?_eq_getElem hhead]
      dsimp only
      split
      · refine (h.settle closedByGroup fun _ => trivial).bind fun settled hsettled => ?_
        refine (meets_groupBrackets hrecurse _ _ _ _).bind fun result hresult => ?_
        have hlarger := hsettled.1.mono (Nat.le_of_lt hresult.2) (result.1 + 1)
        refine (meets_parenthesize hlarger.operandStart_lt hresult.1).bind fun out hout => ?_
        exact ih (hlarger.mono (Nat.le_of_lt hout) _)
      · split
        · refine (h.settle closedByGroup fun _ => trivial).bind fun settled hsettled => ?_
          rw [← hsettled.2] at hhead
          refine (meets_take hhead settled.out).bind fun taken htaken => ?_
          have hlarger := hsettled.1.mono (Nat.le_of_lt htaken) (settled.head + 1)
          refine (meets_parenthesize hlarger.operandStart_lt hhead).bind fun out hout => ?_
          exact ih (hlarger.mono (Nat.le_of_lt hout) _)
        · refine (h.settle _ (meets_closedBy _ p.head)).bind fun settled hsettled => ?_
          rw [← hsettled.2] at hhead
          refine (meets_take hhead settled.out).bind fun out hout => ?_
          have hlarger := hsettled.1.mono (Nat.le_of_lt hout) (settled.head + 1)
          refine Meets.bind ?_ fun next hnext => ih hnext
          apply meets_operand hrecurse
          · exact hlarger.least_le
          · exact hlarger.stack.push hlarger.operandStart_lt hhead
        · exact isRefusal_misplaced _ _ _
      · split
        · exact isRefusal_misplaced _ _ _
        · exact isRefusal_misplaced _ _ _

/-- An expression within the tokens is grouped or refused if its parts are. -/
theorem meets_expressionWith
    {limit depth : Nat} (hrecurse : depth < limit → RecurseFaultless tokens recurse)
    {range : TokenRange} (hrange : range.stop ≤ tokens.size) (out : Array GroupedToken) :
    Meets (fun result => out.size ≤ result.size)
      (expressionWith tokens limit recurse depth range out) := by
  unfold expressionWith
  split
  · exact isRefusal_misplaced _ _ _
  split
  · exact isRefusal_tooDeepAt _ _ _
  · rename_i hdepth
    have hrecurse := hrecurse (by omega)
    have hstack : StackWithin tokens out.size [.sentinel] := ⟨[], .sentinel, rfl, by simp⟩
    refine (meets_operand hrecurse range.length (Nat.le_refl _) hstack).bind fun p hp => ?_
    exact meets_operators hrecurse hrange range.length hp

/-- The bound on recursion is not used up before the limit is reached. -/
theorem meets_expression
    {limit fuel depth : Nat} (hfuel : limit - depth < fuel) {range : TokenRange}
    (hrange : range.stop ≤ tokens.size) (out : Array GroupedToken) :
    Meets (fun result => out.size ≤ result.size)
      (expression tokens limit fuel depth range out) := by
  induction fuel generalizing depth range out with
  | zero => omega
  | succ fuel ih =>
      rw [expression]
      apply meets_expressionWith _ hrange
      intro hdepth part out hpart
      exact ih (by omega) hpart out

end Grouping

/-- An expression within the tokens is grouped without a fault. -/
theorem faultless_groupTokens
    {tokens : Array Token} {range : TokenRange} (hrange : range.stop ≤ tokens.size)
    (limit : Nat) : Faultless (groupTokens tokens range limit) := by
  have hmeets : Meets _ (Grouping.expression tokens limit (recursionBound limit) 0 range #[]) :=
    Grouping.meets_expression (by simp only [recursionBound]; omega) hrange #[]
  unfold groupTokens
  split
  · exact faultless_ok _
  · rename_i e herror
    exact faultless_of_isRefusal (hmeets.faultless.isRefusal herror)

end ExprFront
