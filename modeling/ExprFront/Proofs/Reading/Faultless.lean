import ExprFront.Proofs.Reading.Outcome
import ExprFront.Proofs.Scope.Bounds

/-!
# Reading without faults

Whatever the tokens are, an expression that lies within them is read or refused:
no index is outside the tokens, and the bound on recursion is not used up. Along
a chain of recursive calls either the least priority grows or the depth does, so
the calls at one depth are fewer than the priorities, and the depths are bounded
by the limit.
-/

namespace ExprFront

open Attempt

namespace Reading

/-- The bound on recursion is large enough to read an operand with a least priority. -/
structure Room (r : Reading) (fuel depth least : Nat) : Prop where
  least_le : least ≤ 16
  depth_le : depth ≤ r.limit
  enough : 20 * (r.limit - depth) + 18 ≤ fuel + least

/-- Within the tokens, an operand is read without a fault. -/
def ClimbFaultless (r : Reading) (climb : Climber) (fuel : Nat) : Prop :=
  ∀ depth pos stop least, pos < stop → stop ≤ r.tokens.size → r.Room fuel depth least →
    (climb depth pos stop least).Faultless

/-- Within the tokens, a range is filled without a fault. -/
def FillFaultless (r : Reading) (fill : Filler) (fuel : Nat) : Prop :=
  ∀ depth range production, range.stop ≤ r.tokens.size → 20 * (r.limit - depth) < fuel →
    (fill depth range production).Faultless

theorem faultless_misplaced
    {α : Type} (r : Reading) (kind : Misplacement) (production : Production) (index : Nat) :
    (fail (r.misplaced kind production index) : Attempt α).Faultless :=
  (failsBy_fail (isRefusal_misplacedAt _ _ _ _)).faultless

theorem faultless_misplacedAfter
    {α : Type} (r : Reading) (t : Tree) (kind : Misplacement) (production : Production)
    (index : Nat) : (failAfter t (r.misplaced kind production index) : Attempt α).Faultless :=
  (failsBy_failAfter (isRefusal_misplacedAt _ _ _ _)).faultless

theorem faultless_ofScope
    {α : Type} (result : Except ScopeError α) : (ofScope result).Faultless := by
  cases result with
  | ok a => exact Attempt.faultless_ok a
  | error e => exact (failsBy_fail (isRefusal_scope e)).faultless

section Parameters

variable {r : Reading} {climb : Climber} {fill : Filler} {fuel depth pos stop least : Nat}

theorem faultless_deeper
    {α : Type} {inner : Attempt α} (h : depth < r.limit → inner.Faultless) (index : Nat) :
    (r.deeper depth index inner).Faultless := by
  unfold deeper
  split
  · exact (failsBy_fail (isRefusal_tooDeepAt _ _ _)).faultless
  · exact h (by omega)

theorem faultless_items
    {fillPart : TokenRange → Attempt Tree} {parts : List TokenRange}
    (hparts : ∀ part ∈ parts, (fillPart part).Faultless) (kind : NodeKind) (range : TokenRange)
    (done : List Tree) : (items fillPart kind range done parts).Faultless := by
  induction parts generalizing done with
  | nil => exact Attempt.faultless_ok _
  | cons part parts ih =>
      have hafter := (hparts part List.mem_cons_self).after (.node kind range done)
      rw [items]
      split
      · exact ih (fun other hother => hparts other (List.mem_cons_of_mem part hother)) _
      · rename_i failure hfailure
        exact hafter.error hfailure

theorem faultless_list
    (hfill : FillFaultless r fill fuel) (henough : 20 * (r.limit - depth) < fuel) (b : Bracket)
    (kind : NodeKind) (production : Production) :
    (r.list fill depth pos stop b kind production).Faultless := by
  refine (faultless_ofScope _).bind fun separated hseparated => ?_
  have hwithin : separated.Within r.tokens := by
    cases hresolve : Separated.resolve r.tokens ⟨pos, stop⟩ b .comma with
    | error e =>
        rw [hresolve] at hseparated
        cases hseparated
    | ok found =>
        rw [hresolve] at hseparated
        cases hseparated
        exact (Separated.within_of_resolve hresolve).1
  refine (faultless_items (fun part hpart => ?_) kind _ []).bind
    fun tree _ => Attempt.faultless_ok _
  have hbounds := hwithin.parts part hpart
  have hstop := hwithin.stop_le
  exact hfill depth part production (by omega) henough

theorem faultless_applied
    (hfill : FillFaultless r fill fuel) (henough : 20 * (r.limit - depth) < fuel) (callee : Tree)
    (b : Bracket) : (r.applied fill depth callee pos stop b).Faultless := by
  have hafter : ((r.list fill depth pos stop b (groupRole b).2.1 (groupRole b).2.2).after
      callee).Faultless := (faultless_list hfill henough b _ _).after callee
  unfold applied
  dsimp only
  split
  · exact Attempt.faultless_ok _
  · rename_i failure hfailure
    exact hafter.error hfailure

/-- The right operand lies deeper, or is read with a higher least priority. -/
theorem faultless_rightOperand
    {op : Operation} (hclimb : ClimbFaultless r climb fuel) (hpos : pos + 1 < stop)
    (hsize : stop ≤ r.tokens.size) (hroom : r.Room (fuel + 1) depth least)
    (hleast : least ≤ op.priority) :
    (r.rightOperand climb depth pos stop op).Faultless := by
  obtain ⟨-, hdepth, henough⟩ := hroom
  have hpriority := op.priority_le_memberAccessPriority
  have hmember : Operation.memberAccessPriority = 15 := rfl
  unfold rightOperand
  split
  · refine faultless_deeper (fun hlt => ?_) pos
    exact hclimb _ _ _ _ hpos hsize ⟨by omega, hlt, by omega⟩
  · exact hclimb _ _ _ _ hpos hsize ⟨by omega, hdepth, by omega⟩

theorem faultless_grow
    (hclimb : ClimbFaultless r climb fuel) (hfill : FillFaultless r fill fuel)
    (hsize : stop ≤ r.tokens.size) (hroom : r.Room (fuel + 1) depth least) (steps : Nat)
    (previous : Option Operation) (operand : Tree) (pos : Nat) :
    (r.grow climb fill depth stop least steps previous operand pos).Faultless := by
  have henough : 20 * (r.limit - depth) < fuel := by
    have hleast := hroom.least_le
    have hfuel := hroom.enough
    omega
  induction steps generalizing previous operand pos with
  | zero => exact Attempt.faultless_ok _
  | succ steps ih =>
      rw [grow]
      split
      · exact Attempt.faultless_ok _
      obtain ⟨k, hk⟩ := exists_kindAt (by omega : pos < r.tokens.size)
      rw [kind?_eq, hk]
      dsimp only
      split
      · split
        · exact ih _ _ _
        · rename_i failure hfailure
          exact (faultless_applied hfill henough operand _).error hfailure
      · exact ih _ _ _
      · exact Attempt.faultless_ok _
      · rename_i op _ _ _
        split
        · exact Attempt.faultless_ok _
        split
        · exact faultless_misplacedAfter _ _ _ _ _
        split
        · exact faultless_misplacedAfter _ _ _ _ _
        split
        · exact ih _ _ _
        · rename_i hleast _ hnext _ failure hfailure
          have hright := (faultless_rightOperand hclimb (by omega : pos + 1 < stop) hsize hroom
            (by omega : least ≤ op.priority)).after operand
          exact hright.error hfailure

theorem faultless_subexpression
    (hfill : FillFaultless r fill fuel) (henough : 20 * (r.limit - depth) < fuel) :
    (r.subexpression fill depth pos stop).Faultless := by
  unfold subexpression
  cases hscope : Scope.matching r.tokens ⟨pos, stop⟩ .paren with
  | error e => exact (failsBy_fail (isRefusal_scope e)).faultless
  | ok scope =>
      refine (Attempt.faultless_ok scope).bind fun _ heq => ?_
      cases heq
      split
      · exact faultless_misplaced _ _ _ _
      · refine Attempt.Faultless.bind ?_ fun inner _ => Attempt.faultless_ok _
        have hbounds := Scope.bounds_of_matching hscope
        exact hfill depth scope.interior _ (by simp only [Scope.interior]; omega) henough

theorem faultless_primary
    (hfill : FillFaultless r fill fuel) (henough : 20 * (r.limit - depth) < fuel)
    (hinserted : ∀ index mark, r.isInserted index mark = false) (k : TokenKind) :
    (r.primary climb fill depth pos stop k).Faultless := by
  unfold primary
  split
  · exact Attempt.faultless_ok _
  · split
    · rw [hinserted, if_neg (by decide)]
      exact faultless_subexpression hfill henough
    · exact faultless_list hfill henough _ _ _
    · exact faultless_list hfill henough _ _ _
    · refine (failsBy_fail ?_).faultless
      unfold noOperand
      dsimp only
      split
      · exact isRefusal_misplacedAt _ _ _ _
      · exact isRefusal_misplacedAt _ _ _ _

theorem faultless_prefixed
    (hclimb : ClimbFaultless r climb fuel) (hfill : FillFaultless r fill fuel)
    (hinserted : ∀ index mark, r.isInserted index mark = false) (hpos : pos < stop)
    (hsize : stop ≤ r.tokens.size) (hroom : r.Room (fuel + 1) depth least) :
    (r.prefixed climb fill depth pos stop).Faultless := by
  obtain ⟨hleast, hdepth, henough⟩ := hroom
  obtain ⟨k, hk⟩ := exists_kindAt (Nat.lt_of_lt_of_le hpos hsize)
  unfold prefixed
  rw [kind?_eq, hk]
  dsimp only
  split
  · exact faultless_primary hfill (by omega) hinserted k
  · split
    · exact faultless_misplaced _ _ _ _
    · have hoperand : (r.deeper depth pos
          (climb (depth + 1) (pos + 1) stop Operation.beforePriority)).Faultless := by
        refine faultless_deeper (fun hlt => ?_) pos
        exact hclimb _ _ _ _ (by omega) hsize ⟨by decide, hlt, by omega⟩
      split
      · exact Attempt.faultless_ok _
      · rename_i failure hfailure
        exact hoperand.error hfailure

theorem climbFaultless_climbWith
    (hclimb : ClimbFaultless r climb fuel) (hfill : FillFaultless r fill fuel)
    (hinserted : ∀ index mark, r.isInserted index mark = false) :
    ClimbFaultless r (r.climbWith climb fill) (fuel + 1) := by
  intro depth pos stop least hpos hsize hroom
  have hprefixed := faultless_prefixed hclimb hfill hinserted hpos hsize hroom
  unfold climbWith
  split
  · exact faultless_grow hclimb hfill hsize hroom _ _ _ _
  · rename_i failure hfailure
    exact hprefixed.error hfailure

/-- Without the parentheses around it, a range still ends within the tokens. -/
theorem faultless_dropOuterParens
    {range : TokenRange} (hsize : range.stop ≤ r.tokens.size) (production : Production)
    (steps : Nat) :
    (lift (r.dropOuterParens production steps range)).Faultless ∧
      ∀ inside, r.dropOuterParens production steps range = .ok inside →
        inside.stop ≤ r.tokens.size := by
  induction steps generalizing range with
  | zero =>
      refine ⟨Attempt.faultless_ok _, ?_⟩
      rintro inside ⟨⟩
      exact hsize
  | succ steps ih =>
      rw [dropOuterParens]
      split
      · refine ⟨Attempt.faultless_ok _, ?_⟩
        rintro inside ⟨⟩
        exact hsize
      cases hscope : Scope.matching r.tokens range .paren with
      | error e =>
          refine ⟨(failsBy_fail (isRefusal_scope e)).faultless, ?_⟩
          rintro inside ⟨⟩
      | ok scope =>
          simp only [liftScope, bind, Except.bind]
          split
          · refine ⟨Attempt.faultless_ok _, ?_⟩
            rintro inside ⟨⟩
            exact hsize
          split
          · refine ⟨faultless_misplaced _ _ _ _, ?_⟩
            rintro inside ⟨⟩
          · have hbounds := Scope.bounds_of_matching hscope
            exact ih (by simp only [Scope.interior]; omega)

theorem fillFaultless_fillWith
    (hclimb : ClimbFaultless r climb fuel) :
    FillFaultless r (r.fillWith climb) (fuel + 1) := by
  intro depth range production hsize henough
  refine faultless_deeper (fun hlt => ?_) _
  obtain ⟨hdrop, hinside⟩ := faultless_dropOuterParens hsize production range.length
  refine hdrop.bind fun inside heq => ?_
  have hstop : inside.stop ≤ r.tokens.size := by
    cases hresult : r.dropOuterParens production range.length range with
    | error e =>
        rw [hresult] at heq
        cases heq
    | ok result =>
        rw [hresult] at heq
        cases heq
        exact hinside inside hresult
  split
  · exact faultless_misplaced _ _ _ _
  · rename_i hnonempty
    simp only [TokenRange.isEmpty, decide_eq_true_eq, Nat.not_le] at hnonempty
    refine (hclimb _ _ _ _ hnonempty hstop ⟨by omega, hlt, by omega⟩).bind fun found _ => ?_
    dsimp only
    split
    · exact (failsBy_failAfter (isRefusal_surplus (by omega))).faultless
    · exact Attempt.faultless_ok _

end Parameters

/-- Reading is free of faults, for operands and ranges at once. -/
theorem faultless_climb_and_fill
    {r : Reading} (hinserted : ∀ index mark, r.isInserted index mark = false) (fuel : Nat) :
    ClimbFaultless r (r.climb fuel) fuel ∧ FillFaultless r (r.fill fuel) fuel := by
  induction fuel with
  | zero =>
      constructor
      · intro depth pos stop least _ _ hroom
        have hleast := hroom.least_le
        have henough := hroom.enough
        omega
      · intro depth range production _ henough
        omega
  | succ fuel ih =>
      constructor
      · intro depth pos stop least
        rw [climb]
        exact climbFaultless_climbWith ih.1 ih.2 hinserted depth pos stop least
      · intro depth range production
        rw [fill]
        exact fillFaultless_fillWith ih.1 depth range production

theorem faultless_whole_plain
    {tokens : Array Token} {range : TokenRange} (hstop : range.stop ≤ tokens.size)
    (limit : Nat) (production : Production) :
    ((plain tokens limit).whole range production).Faultless := by
  refine (faultless_climb_and_fill (fun _ _ => rfl) _).2 0 range production hstop ?_
  simp only [recursionBound]
  omega

theorem faultless_longest_plain
    {tokens : Array Token} {range : TokenRange} (hstop : range.stop ≤ tokens.size)
    (limit : Nat) : ((plain tokens limit).longest range).Faultless := by
  unfold longest
  split
  · exact faultless_misplaced _ _ _ _
  · rename_i hnonempty
    simp only [TokenRange.isEmpty, decide_eq_true_eq, Nat.not_le] at hnonempty
    refine (faultless_climb_and_fill (fun _ _ => rfl) _).1 0 _ _ 0 hnonempty hstop
      ⟨by omega, Nat.zero_le _, ?_⟩
    simp only [recursionBound]
    omega

end Reading

namespace Guarded

/-- The range without the parentheses that enclose all of it. -/
def dropOuterParens (r : Reading) (production : Production) :
    (steps : Nat) → TokenRange → Except ParseError TokenRange
  | 0, range => if range.isEmpty then .ok range else .error (.fault .exhausted)
  | steps + 1, range =>
      if range.isEmpty then .ok range
      else match token r.tokens range.start with
        | .error f => .error (.fault f)
        | .ok first =>
            if first.kind ≠ .punctuation .lparen then .ok range
            else match Scope.matching r.tokens range .paren with
              | .error e => .error (.scope e)
              | .ok scope =>
                  if scope.stop ≠ range.stop then .ok range
                  else if scope.interior.isEmpty then
                    .error (r.misplaced .emptyOperand production scope.start)
                  else dropOuterParens r production steps scope.interior

theorem dropOuterParens_eq
    {r : Reading} {range : TokenRange} {steps : Nat} (hstop : range.stop ≤ r.tokens.size)
    (hsteps : range.length ≤ steps) (production : Production) :
    dropOuterParens r production steps range = r.dropOuterParens production steps range := by
  induction steps generalizing range with
  | zero =>
      have hempty := range.isEmpty_iff_length_eq_zero.mpr (Nat.le_zero.mp hsteps)
      rw [dropOuterParens, if_pos hempty, Reading.dropOuterParens]
  | succ steps ih =>
      rw [dropOuterParens, Reading.dropOuterParens]
      by_cases hempty : range.isEmpty = true
      · rw [if_pos hempty, if_pos (.inl hempty)]
      · have hlength : range.length ≠ 0 := mt range.isEmpty_iff_length_eq_zero.mpr hempty
        simp only [TokenRange.length] at hlength hsteps
        obtain ⟨first, hsome, htoken⟩ := exists_token (by omega : range.start < r.tokens.size)
        rw [if_neg hempty, htoken, Reading.kind?_eq, kindAt, hsome]
        simp only [hempty, Option.map_some, ne_eq, Option.some.injEq, false_or, Bool.false_eq_true]
        split
        · rfl
        cases hscope : Scope.matching r.tokens range .paren with
        | error e => rfl
        | ok scope =>
            simp only [liftScope, bind, Except.bind]
            split
            · rfl
            split
            · rfl
            · have hbounds := Scope.bounds_of_matching hscope
              refine ih ?_ ?_
              · simp only [Scope.interior]
                omega
              · simp only [Scope.interior, TokenRange.length]
                omega

end Guarded

end ExprFront
