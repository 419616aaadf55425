import ExprFront.Grouping.Basic
import ExprFront.Proofs.Scope.Bounds
import ExprFront.Proofs.Shallow

/-!
# How deep grouping nests

Grouping goes one level deeper only into the parts of a bracket group, which
lack the two brackets. So the levels below an expression are fewer than its
tokens, and a limit that leaves one level for each token is never reached.
-/

namespace ExprFront

namespace Grouping

variable {tokens : Array Token}

theorem isShallow_misplaced
    (tokens : Array Token) (kind : Misplacement) (index : Nat) :
    (misplaced tokens kind index).IsShallow :=
  isShallow_misplacedAt _ _ _ _

theorem shallow_take
    (index : Nat) (out : Array GroupedToken) : Shallow (take tokens index out) := by
  unfold take
  split
  · trivial
  · exact isShallow_fault _

theorem shallow_parenthesize
    (start anchor : Nat) (out : Array GroupedToken) :
    Shallow (parenthesize tokens start anchor out) := by
  unfold parenthesize
  split
  · trivial
  · exact isShallow_fault _
  · exact isShallow_fault _

/-- Parts within a range are grouped within the limit. -/
def RecurseShallow (recurse : TokenRange → Emit) (length : Nat) : Prop :=
  ∀ part out, part.length + 2 ≤ length → Shallow (recurse part out)

variable {recurse : TokenRange → Emit} {length : Nat}

theorem shallow_groupParts
    (hrecurse : RecurseShallow recurse length) {parts : List TokenRange}
    (hparts : ∀ part ∈ parts, part.length + 2 ≤ length) (out : Array GroupedToken) :
    Shallow (groupParts tokens recurse parts out) := by
  induction parts generalizing out with
  | nil => trivial
  | cons part parts ih =>
      obtain ⟨hpart, hmore⟩ := List.forall_mem_cons.mp hparts
      refine (shallow_take _ out).bind fun comma _ _ => ?_
      refine (hrecurse part comma hpart).bind fun grouped _ _ => ?_
      exact ih hmore grouped

/-- The parts of a bracket group lack its brackets. -/
theorem shallow_groupBrackets
    {opening stop : Nat} (hrecurse : RecurseShallow recurse length)
    (hlength : stop - opening ≤ length) (b : Bracket) (out : Array GroupedToken) :
    Settles ParseError.IsShallow (fun result => opening < result.1)
      (groupBrackets tokens recurse opening stop b out) := by
  unfold groupBrackets
  refine (shallow_liftScope _).bind fun separated hresolve _ => ?_
  obtain ⟨⟨hscope, -, hparts⟩, hstart, hstop⟩ := Separated.within_of_resolve hresolve
  dsimp only at hstart hstop
  have hwithin : ∀ part ∈ separated.parts, part.length + 2 ≤ length := by
    intro part hpart
    have hbounds := hparts part hpart
    simp only [TokenRange.length]
    omega
  refine (shallow_take _ out).bind fun first _ _ => ?_
  have hclose : ∀ inside, Settles ParseError.IsShallow
      (fun result : Nat × Array GroupedToken => opening < result.1)
      (do
        let last ← take tokens (separated.scope.stop - 1) inside
        return (separated.scope.stop - 1, last)) := by
    intro inside
    refine (shallow_take _ inside).bind fun last _ _ => ?_
    show opening < separated.scope.stop - 1
    omega
  cases hlist : separated.parts with
  | nil => exact hclose first
  | cons part parts =>
      rw [hlist] at hwithin
      obtain ⟨hpart, hmore⟩ := List.forall_mem_cons.mp hwithin
      refine (hrecurse part first hpart).bind fun grouped _ _ => ?_
      refine (shallow_groupParts hrecurse hmore grouped).bind fun inside _ _ => ?_
      exact hclose inside

theorem shallow_settle
    {closes : OpenApplication → Except ParseError Bool} (hcloses : ∀ c, Shallow (closes c))
    (stack : List OpenApplication) (out : Array GroupedToken) (operandStart : Nat) :
    Shallow (settle tokens closes stack out operandStart) := by
  induction stack generalizing out operandStart with
  | nil => exact isShallow_fault _
  | cons top rest ih =>
      cases rest with
      | nil => trivial
      | cons below rest =>
          rw [settle]
          refine (hcloses top).bind fun close _ _ => ?_
          cases close with
          | false => trivial
          | true =>
              refine (shallow_parenthesize _ _ out).bind fun larger _ _ => ?_
              exact ih larger top.start

theorem shallow_progressSettle
    (closes : OpenApplication → Except ParseError Bool) (hcloses : ∀ c, Shallow (closes c))
    (p : Progress) :
    Settles ParseError.IsShallow (fun q => q.head = p.head) (p.settle tokens closes) := by
  refine (shallow_settle hcloses p.stack p.out p.operandStart).bind fun result _ _ => ?_
  exact rfl

theorem shallow_finish
    (p : Progress) : Shallow (p.finish tokens) := by
  refine (shallow_progressSettle (fun _ => .ok true) (fun _ => trivial) p).bind
    fun settled _ _ => ?_
  trivial

theorem shallow_closedBy
    (op : Operation) (index : Nat) (c : OpenApplication) :
    Shallow (closedBy tokens op index c) := by
  unfold closedBy
  split
  · exact isShallow_misplaced _ _ _
  · trivial

theorem shallow_requireFilled
    (opening stop : Nat) (b : Bracket) : Shallow (requireFilled tokens opening stop b) := by
  cases b with
  | paren =>
      refine (shallow_liftScope _).bind fun scope _ _ => ?_
      split
      · exact isShallow_misplaced _ _ _
      · trivial
  | square => trivial
  | brace => trivial

theorem shallow_operand
    {range : TokenRange} (hrecurse : RecurseShallow recurse range.length) (steps : Nat)
    (p : Progress) (hhead : range.start ≤ p.head) :
    Settles ParseError.IsShallow (fun q => range.start ≤ q.head)
      (operand tokens recurse range steps p) := by
  induction steps generalizing p with
  | zero => exact isShallow_misplaced _ _ _
  | succ steps ih =>
      rw [operand]
      split
      · exact isShallow_misplaced _ _ _
      split
      · exact isShallow_misplaced _ _ _
      split
      · refine (shallow_take _ p.out).bind fun out _ _ => ?_
        exact ih _ (Nat.le_succ_of_le hhead)
      split
      · refine (shallow_requireFilled _ _ _).bind fun _ _ _ => ?_
        refine (shallow_groupBrackets hrecurse (Nat.sub_le_sub_left hhead _) _ _).bind
          fun result hresult _ => ?_
        show range.start ≤ result.1 + 1
        omega
      split
      · refine (shallow_take _ p.out).bind fun out _ _ => ?_
        exact Nat.le_succ_of_le hhead
      split
      · exact isShallow_misplaced _ _ _
      · exact isShallow_misplaced _ _ _

theorem shallow_operators
    {range : TokenRange} (hrecurse : RecurseShallow recurse range.length) (steps : Nat)
    (p : Progress) (hhead : range.start ≤ p.head) :
    Shallow (operators tokens recurse range steps p) := by
  induction steps generalizing p with
  | zero => exact shallow_finish p
  | succ steps ih =>
      rw [operators]
      split
      · exact shallow_finish p
      split
      · exact isShallow_fault _
      split
      · refine (shallow_progressSettle closedByGroup (fun _ => trivial) p).bind fun q hq _ => ?_
        refine (shallow_groupBrackets hrecurse (by simp only [TokenRange.length]; omega) _ _).bind
          fun result hresult _ => ?_
        refine (shallow_parenthesize _ _ _).bind fun out _ _ => ?_
        exact ih _ (by dsimp only; omega)
      · split
        · refine (shallow_progressSettle closedByGroup (fun _ => trivial) p).bind fun q hq _ => ?_
          refine (shallow_take _ _).bind fun taken _ _ => ?_
          refine (shallow_parenthesize _ _ _).bind fun out _ _ => ?_
          exact ih _ (by dsimp only; omega)
        · refine (shallow_progressSettle _ (shallow_closedBy _ _) p).bind fun q hq _ => ?_
          refine (shallow_take _ _).bind fun out _ _ => ?_
          refine (shallow_operand hrecurse _ _ (by dsimp only; omega)).bind fun next hnext _ => ?_
          exact ih next hnext
        · exact isShallow_misplaced _ _ _
      · split
        · exact isShallow_misplaced _ _ _
        · exact isShallow_misplaced _ _ _

theorem shallow_expression
    (tokens : Array Token) {limit : Nat} (fuel depth : Nat) (range : TokenRange)
    (out : Array GroupedToken) (hlimit : depth + range.length ≤ limit) :
    Shallow (expression tokens limit fuel depth range out) := by
  induction fuel generalizing depth range out with
  | zero => exact isShallow_fault _
  | succ fuel ih =>
      rw [expression, expressionWith]
      split
      · exact isShallow_misplaced _ _ _
      rename_i hnonempty
      have hlength : range.length ≠ 0 := mt range.isEmpty_iff_length_eq_zero.mpr hnonempty
      rw [if_neg (by omega)]
      have hrecurse : RecurseShallow (expression tokens limit fuel (depth + 1)) range.length := by
        intro part out hpart
        exact ih (depth + 1) part out (by omega)
      refine (shallow_operand hrecurse _ _ (Nat.le_refl _)).bind fun p hp _ => ?_
      exact shallow_operators hrecurse _ p hp

end Grouping

/-- A limit of one level for each token is enough to group them. -/
theorem shallow_groupTokens
    (tokens : Array Token) {range : TokenRange} {limit : Nat} (hlimit : range.length ≤ limit) :
    Shallow (groupTokens tokens range limit) := by
  have hexpression := Grouping.shallow_expression tokens (recursionBound limit) 0 range #[]
    (by omega : 0 + range.length ≤ limit)
  unfold groupTokens
  split
  · trivial
  · rename_i e herror
    rw [herror] at hexpression
    exact hexpression

end ExprFront
