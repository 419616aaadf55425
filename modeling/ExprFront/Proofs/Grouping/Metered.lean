import ExprFront.Grouping.Basic
import ExprFront.Proofs.Metered

/-!
# Grouping with a meter at every call

Three functions group an expression by calling each other: the expression calls
for an operand and for the group after it, an operand for the group in its
place, and a group for the expressions that are its parts. Here each of them
takes a meter that is one less at every call. The recursion of `expression`
counts the last of these calls only, so the metered functions have its outcome
with three for each level.
-/

namespace ExprFront.Grouping

/-- Reads an operand in a range. -/
abbrev Reader := TokenRange → Progress → Except ParseError Progress

/-- Copies the bracket group between an index and an end. The number is that of its closing
token. -/
abbrev Grouper :=
  (opening stop : Nat) → Bracket → Array GroupedToken → Except ParseError (Nat × Array GroupedToken)

/-! ## One call of each function -/

/-- An operand is read: any number of operators before it, and then a group or a token. -/
def operandBy (tokens : Array Token) (group : Grouper) (range : TokenRange) :
    Nat → Progress → Except ParseError Progress
  | 0, p => .error (misplaced tokens .missingOperand (p.head - 1))
  | steps + 1, p =>
      if range.stop ≤ p.head then .error (misplaced tokens .missingOperand (p.head - 1))
      else match tokens[p.head]? with
        | none => .error (misplaced tokens .missingOperand (p.head - 1))
        | some t =>
            if t.kind.before.isSome then do
              let application : OpenApplication :=
                ⟨.before, Operation.beforePriority, .right, p.out.size, p.head⟩
              let out ← take tokens p.head p.out
              operandBy tokens group range steps
                { p with out, stack := application :: p.stack, head := p.head + 1 }
            else match t.kind.opens with
              | some b => do
                  requireFilled tokens p.head range.stop b
                  let operandStart := p.out.size
                  let (closing, out) ← group p.head range.stop b p.out
                  return { p with out, operandStart, head := closing + 1 }
              | none =>
                  if t.kind.isOperand then do
                    let operandStart := p.out.size
                    let out ← take tokens p.head p.out
                    return { p with out, operandStart, head := p.head + 1 }
                  else if p.head ≠ range.start ∧ t.kind.isOperator then
                    .error (misplaced tokens .missingOperand p.head)
                  else .error (misplaced tokens .invalidStart p.head)

/-- Reads an operand, with as many steps as the range has tokens. -/
def reader (tokens : Array Token) (group : Grouper) : Reader := fun range =>
  operandBy tokens group range range.length

/-- What follows an operand is read up to the end of the range, operand by operand. -/
def operatorsBy (tokens : Array Token) (operand : Reader) (group : Grouper) (range : TokenRange) :
    Nat → Progress → Except ParseError (Array GroupedToken)
  | 0, p => p.finish tokens
  | steps + 1, p =>
      if range.stop ≤ p.head then p.finish tokens
      else match tokens[p.head]? with
        | none => .error (.fault (.missingToken p.head))
        | some t =>
            match t.kind.opens, t.kind.operator? with
            | some b, _ => do
                let p ← p.settle tokens closedByGroup
                let (closing, out) ← group p.head range.stop b p.out
                let out ← parenthesize tokens p.operandStart closing out
                operatorsBy tokens operand group range steps { p with out, head := closing + 1 }
            | none, some op =>
                match op.after, op.between with
                | some _, _ => do
                    let p ← p.settle tokens closedByGroup
                    let out ← take tokens p.head p.out
                    let out ← parenthesize tokens p.operandStart p.head out
                    operatorsBy tokens operand group range steps { p with out, head := p.head + 1 }
                | none, some operation => do
                    let p ← p.settle tokens (closedBy tokens operation p.head)
                    let application := OpenApplication.ofOperation operation p.operandStart p.head
                    let out ← take tokens p.head p.out
                    let p ← operand range
                      { p with out, stack := application :: p.stack, head := p.head + 1 }
                    operatorsBy tokens operand group range steps p
                | none, none => .error (misplaced tokens .prefixAfterOperand p.head)
            | none, none =>
                if t.kind.isOperand then .error (misplaced tokens .operandAfterOperand p.head)
                else .error (misplaced tokens .invalidToken p.head)

/-- One expression that fills the range is grouped. -/
def expressionBy (tokens : Array Token) (limit : Nat) (operand : Reader) (group : Grouper)
    (depth : Nat) (range : TokenRange) : Emit := fun out =>
  if range.isEmpty then .error (misplaced tokens .emptyOperand range.start)
  else if limit ≤ depth then .error (.tooDeepAt tokens limit range.start)
  else do
    let p ← operand range ⟨out, [.sentinel], range.start, out.size⟩
    operatorsBy tokens operand group range range.length p

/-! ## The metered functions -/

namespace Metered

mutual

/-- An expression that fills a range, at a depth of nesting. -/
def expression (tokens : Array Token) (limit : Nat) : (fuel depth : Nat) → TokenRange → Emit
  | 0, _ => fun _ _ => .error (.fault .exhausted)
  | fuel + 1, depth =>
      expressionBy tokens limit (operand tokens limit fuel depth) (group tokens limit fuel depth)
        depth

/-- An operand of an expression at a depth. -/
def operand (tokens : Array Token) (limit : Nat) : (fuel depth : Nat) → Reader
  | 0, _ => fun _ _ => .error (.fault .exhausted)
  | fuel + 1, depth => reader tokens (group tokens limit fuel depth)

/-- A bracket group in an expression at a depth. -/
def group (tokens : Array Token) (limit : Nat) : (fuel depth : Nat) → Grouper
  | 0, _ => fun _ _ _ _ => .error (.fault .exhausted)
  | fuel + 1, depth => groupBrackets tokens (expression tokens limit fuel (depth + 1))

end

end Metered

/-! ## The functions over the grouping of the parts -/

theorem operand_eq_operandBy
    (tokens : Array Token) (recurse : TokenRange → Emit) (range : TokenRange) (steps : Nat)
    (p : Progress) :
    operand tokens recurse range steps p =
      operandBy tokens (groupBrackets tokens recurse) range steps p := by
  induction steps generalizing p with
  | zero => rfl
  | succ steps ih =>
      simp only [operand, ih]
      rfl

theorem operators_eq_operatorsBy
    (tokens : Array Token) (recurse : TokenRange → Emit) (range : TokenRange) (steps : Nat)
    (p : Progress) :
    operators tokens recurse range steps p =
      operatorsBy tokens (reader tokens (groupBrackets tokens recurse))
        (groupBrackets tokens recurse) range steps p := by
  induction steps generalizing p with
  | zero => rfl
  | succ steps ih =>
      simp only [operators, operand_eq_operandBy, ih]
      rfl

theorem expressionWith_eq_expressionBy
    (tokens : Array Token) (limit : Nat) (recurse : TokenRange → Emit) (depth : Nat)
    (range : TokenRange) :
    expressionWith tokens limit recurse depth range =
      expressionBy tokens limit (reader tokens (groupBrackets tokens recurse))
        (groupBrackets tokens recurse) depth range := by
  funext out
  simp only [expressionWith, expressionBy, reader, operand_eq_operandBy, operators_eq_operatorsBy]

/-! ## The same outcome, unless the meter runs out -/

/-- The second function emits what the first one emits, unless the meter of that one runs out. -/
def SameEmits (emit emit' : TokenRange → Emit) : Prop :=
  ∀ range out, SameUnless ParseError.Spent (emit range out) (emit' range out)

@[inherit_doc SameEmits]
def SameReaders (operand operand' : Reader) : Prop :=
  ∀ range p, SameUnless ParseError.Spent (operand range p) (operand' range p)

@[inherit_doc SameEmits]
def SameGroups (group group' : Grouper) : Prop :=
  ∀ opening stop b out,
    SameUnless ParseError.Spent (group opening stop b out) (group' opening stop b out)

section SameOutcome

variable {tokens : Array Token} {limit : Nat} {recurse recurse' : TokenRange → Emit}
variable {operand operand' : Reader} {group group' : Grouper}

theorem sameUnless_groupParts
    (hrecurse : SameEmits recurse recurse') (parts : List TokenRange) (out : Array GroupedToken) :
    SameUnless ParseError.Spent (groupParts tokens recurse parts out)
      (groupParts tokens recurse' parts out) := by
  induction parts generalizing out with
  | nil => exact .refl _
  | cons part parts ih =>
      rw [groupParts, groupParts]
      exact (SameUnless.refl _).bind fun taken => (hrecurse part taken).bind ih

theorem sameGroups_groupBrackets
    (hrecurse : SameEmits recurse recurse') :
    SameGroups (groupBrackets tokens recurse) (groupBrackets tokens recurse') := by
  intro opening stop b out
  unfold groupBrackets
  refine (SameUnless.refl _).bind fun separated => (SameUnless.refl _).bind fun taken => ?_
  cases separated.parts with
  | nil => exact .refl _
  | cons part parts =>
      exact (hrecurse part taken).bind fun first =>
        (sameUnless_groupParts hrecurse parts first).bind fun inside => .refl _

theorem sameReaders_reader
    (hgroup : SameGroups group group') :
    SameReaders (reader tokens group) (reader tokens group') := by
  intro range p
  unfold reader
  generalize range.length = steps
  induction steps generalizing p with
  | zero => exact .refl _
  | succ steps ih =>
      rw [operandBy, operandBy]
      split
      · exact .refl _
      split
      · exact .refl _
      split
      · exact (SameUnless.refl _).bind fun taken => ih _
      split
      · exact (SameUnless.refl _).bind fun _ => (hgroup _ _ _ _).bind fun found => .refl _
      · exact .refl _

theorem sameUnless_operatorsBy
    (hoperand : SameReaders operand operand') (hgroup : SameGroups group group')
    (range : TokenRange) (steps : Nat) (p : Progress) :
    SameUnless ParseError.Spent (operatorsBy tokens operand group range steps p)
      (operatorsBy tokens operand' group' range steps p) := by
  induction steps generalizing p with
  | zero => exact .refl _
  | succ steps ih =>
      rw [operatorsBy, operatorsBy]
      split
      · exact .refl _
      split
      · exact .refl _
      split
      · exact (SameUnless.refl _).bind fun settled => (hgroup _ _ _ _).bind fun found =>
          (SameUnless.refl _).bind fun wrapped => ih _
      · split
        · exact (SameUnless.refl _).bind fun settled => (SameUnless.refl _).bind fun taken =>
            (SameUnless.refl _).bind fun wrapped => ih _
        · exact (SameUnless.refl _).bind fun settled => (SameUnless.refl _).bind fun taken =>
            (hoperand _ _).bind ih
        · exact .refl _
      · exact .refl _

theorem sameEmits_expressionBy
    (hoperand : SameReaders operand operand') (hgroup : SameGroups group group') (depth : Nat) :
    SameEmits (expressionBy tokens limit operand group depth)
      (expressionBy tokens limit operand' group' depth) := by
  intro range out
  unfold expressionBy
  split
  · exact .refl _
  split
  · exact .refl _
  · exact (hoperand _ _).bind fun p => sameUnless_operatorsBy hoperand hgroup range _ p

end SameOutcome

/-- With three calls for each level of the recursion, the metered functions have its outcome. -/
theorem Metered.sameEmits_expression
    (tokens : Array Token) (limit : Nat) {levels fuel : Nat} (hfuel : 3 * levels ≤ fuel)
    (depth : Nat) :
    SameEmits (Grouping.expression tokens limit levels depth)
      (Metered.expression tokens limit fuel depth) := by
  induction levels generalizing fuel depth with
  | zero => exact fun _ _ => SameUnless.of_early (by exact rfl) _
  | succ levels ih =>
      obtain ⟨rest, rfl⟩ : ∃ rest, fuel = rest + 3 := ⟨fuel - 3, by omega⟩
      have hgroup {fuel : Nat} (hle : 3 * levels ≤ fuel) :
          SameGroups (groupBrackets tokens (Grouping.expression tokens limit levels (depth + 1)))
            (Metered.group tokens limit (fuel + 1) depth) :=
        sameGroups_groupBrackets (ih hle (depth + 1))
      have hoperand : SameReaders
          (reader tokens
            (groupBrackets tokens (Grouping.expression tokens limit levels (depth + 1))))
          (Metered.operand tokens limit (rest + 2) depth) :=
        sameReaders_reader (hgroup (by omega : 3 * levels ≤ rest))
      have hexpression : SameEmits _ (Metered.expression tokens limit (rest + 3) depth) :=
        sameEmits_expressionBy hoperand (hgroup (by omega : 3 * levels ≤ rest + 1)) depth
      intro range out
      rw [Grouping.expression, expressionWith_eq_expressionBy]
      exact hexpression range out

end ExprFront.Grouping
