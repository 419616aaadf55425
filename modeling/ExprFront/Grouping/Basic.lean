import ExprFront.Expression.Error
import ExprFront.Grouping.Output
import ExprFront.Scope.Separated

/-!
# Grouping by priorities

Every application of an operation in an expression gets parentheses of its own,
so that reading the result back takes no decision about priorities.

The tokens are read from left to right, in turn as operands and as operators. An
operator that still waits for its right operand makes an open application, which
remembers where in the result its span starts. It is closed, that is, its span is
put in parentheses, as soon as an operator follows that does not bind more
tightly. What stands after an operand binds more tightly than all but member
access, so it is put in parentheses at once. The bottom of the stack of open
applications is a sentinel that is never closed.

Recursion goes through the parts of bracket groups only and is bounded by the
nesting limit; the bound is an explicit argument.
-/

namespace ExprFront.Grouping

/-- An application that waits for its right operand. -/
structure OpenApplication where
  fixity : Fixity
  priority : Nat
  associativity : Associativity
  /-- Where in the result the span of the application starts. -/
  start : Nat
  /-- The index of the operator in the input. -/
  operator : Nat
deriving DecidableEq

/-- The bottom of the stack. -/
def OpenApplication.sentinel : OpenApplication := ⟨.between, 0, .left, 0, 0⟩

/-- The open application of an operation whose span starts at a place. -/
def OpenApplication.ofOperation (op : Operation) (start operator : Nat) : OpenApplication :=
  ⟨op.entry.fixity, op.priority, op.associativity, start, operator⟩

/-- How far the grouping of one expression has come. -/
structure Progress where
  /-- The result so far, that of the surrounding expressions included. -/
  out : Array GroupedToken
  /-- The open applications, the innermost first and the sentinel last. -/
  stack : List OpenApplication
  /-- The index of the next input token. -/
  head : Nat
  /-- Where in the result the operand that was read last starts. -/
  operandStart : Nat
deriving DecidableEq

/-- The step from the result so far to a longer one. -/
abbrev Emit := Array GroupedToken → Except ParseError (Array GroupedToken)

/-- A misplaced token at an index. -/
def misplaced (tokens : Array Token) (kind : Misplacement) (index : Nat) : ParseError :=
  .misplacedAt tokens kind .grouping index

/-- An input token is copied to the end of the result. -/
def take (tokens : Array Token) (index : Nat) : Emit := fun out =>
  match tokens[index]? with
  | some t => .ok (out.push ⟨t, some index⟩)
  | none => .error (.fault (.missingToken index))

/-- Parentheses are put around the result from `start` on. The opening one stands at the token
that it precedes, the closing one at the input token `anchor`. -/
def parenthesize (tokens : Array Token) (start anchor : Nat) : Emit := fun out =>
  match out[start]?, tokens[anchor]? with
  | some first, some last =>
      .ok ((out.insertIdxIfInBounds start ⟨first.token.insertedAt .lparen, none⟩).push
        ⟨last.insertedAt .rparen, none⟩)
  | none, _ => .error (.fault (.missingToken start))
  | _, none => .error (.fault (.missingToken anchor))

/-- Open applications are closed from the innermost on, as long as `closes` says so and down to
the sentinel at most. -/
def settle (tokens : Array Token) (closes : OpenApplication → Except ParseError Bool) :
    List OpenApplication → Array GroupedToken → Nat →
      Except ParseError (List OpenApplication × Array GroupedToken × Nat)
  | [], _, _ => .error (.fault .sentinelClosed)
  | [sentinel], out, operandStart => .ok ([sentinel], out, operandStart)
  | top :: below :: rest, out, operandStart => do
      if ← closes top then
        let out ← parenthesize tokens top.start top.operator out
        settle tokens closes (below :: rest) out top.start
      else .ok (top :: below :: rest, out, operandStart)

/-- The grouping with some of its open applications closed. -/
def Progress.settle
    (p : Progress) (tokens : Array Token) (closes : OpenApplication → Except ParseError Bool) :
    Except ParseError Progress := do
  let (stack, out, operandStart) ← Grouping.settle tokens closes p.stack p.out p.operandStart
  return { p with stack, out, operandStart }

/-- The result when no application is left open. -/
def Progress.finish (p : Progress) (tokens : Array Token) :
    Except ParseError (Array GroupedToken) := do
  let p ← p.settle tokens fun _ => .ok true
  return p.out

/-- An application is closed by an operation that follows it if it binds more tightly, or as
tightly and the operation groups from the left. Two operations of one priority may not meet if one
of them does not chain. -/
def closedBy (tokens : Array Token) (op : Operation) (index : Nat) (c : OpenApplication) :
    Except ParseError Bool :=
  if c.priority = op.priority ∧
      (op.associativity = .nonassoc ∨ c.associativity = .nonassoc) then
    .error (misplaced tokens .nonAssociative index)
  else
    .ok (op.priority < c.priority || (c.priority == op.priority && op.associativity == .left))

/-- An application is closed by what stands after an operand if it binds more tightly. -/
def closedByGroup (c : OpenApplication) : Except ParseError Bool :=
  .ok (Operation.afterPriority < c.priority)

/-- The parts of a bracket group are grouped one after the other; before each but the first its
separator is copied. -/
def groupParts (tokens : Array Token) (recurse : TokenRange → Emit) : List TokenRange → Emit
  | [], out => .ok out
  | part :: parts, out => do
      let out ← take tokens (part.start - 1) out
      let out ← recurse part out
      groupParts tokens recurse parts out

/-- A bracket group is copied with its parts grouped; the number is that of its closing token. -/
def groupBrackets
    (tokens : Array Token) (recurse : TokenRange → Emit) (opening stop : Nat) (b : Bracket)
    (out : Array GroupedToken) : Except ParseError (Nat × Array GroupedToken) := do
  let separated ← liftScope (Separated.resolve tokens ⟨opening, stop⟩ b .comma)
  let out ← take tokens separated.scope.start out
  let out ← match separated.parts with
    | [] => .ok out
    | part :: parts => do
        let out ← recurse part out
        groupParts tokens recurse parts out
  let closing := separated.scope.stop - 1
  let out ← take tokens closing out
  return (closing, out)

/-- Parentheses in the place of an operand may not be empty. -/
def requireFilled (tokens : Array Token) (opening stop : Nat) : Bracket → Except ParseError Unit
  | .paren => do
      let scope ← liftScope (Scope.matching tokens ⟨opening, stop⟩ .paren)
      if scope.interior.isEmpty then .error (misplaced tokens .emptyOperand scope.start)
      else .ok ()
  | _ => .ok ()

/-- An operand is read: any number of operators before it, which open applications, and
then a bracket group or a single token. -/
def operand (tokens : Array Token) (recurse : TokenRange → Emit) (range : TokenRange) :
    Nat → Progress → Except ParseError Progress
  | 0, p => .error (misplaced tokens .missingOperand (p.head - 1))
  | steps + 1, p =>
      if range.stop ≤ p.head then .error (misplaced tokens .missingOperand (p.head - 1))
      else match tokens[p.head]? with
        | none => .error (misplaced tokens .missingOperand (p.head - 1))
        | some t =>
            if t.kind.before.isSome then do
              let application : OpenApplication :=
                ⟨.before, Operation.beforePriority, .right, p.out.size, p.head⟩
              let out ← take tokens p.head p.out
              operand tokens recurse range steps
                { p with out, stack := application :: p.stack, head := p.head + 1 }
            else match t.kind.opens with
              | some b => do
                  requireFilled tokens p.head range.stop b
                  let operandStart := p.out.size
                  let (closing, out) ← groupBrackets tokens recurse p.head range.stop b p.out
                  return { p with out, operandStart, head := closing + 1 }
              | none =>
                  if t.kind.isOperand then do
                    let operandStart := p.out.size
                    let out ← take tokens p.head p.out
                    return { p with out, operandStart, head := p.head + 1 }
                  else if p.head ≠ range.start ∧ t.kind.isOperator then
                    .error (misplaced tokens .missingOperand p.head)
                  else .error (misplaced tokens .invalidStart p.head)

/-- What follows an operand is read: groups and operators after it, which are put in parentheses
with it, and operators between it and the next operand, which open applications. At the end of
the range all applications are closed. -/
def operators (tokens : Array Token) (recurse : TokenRange → Emit) (range : TokenRange) :
    Nat → Progress → Except ParseError (Array GroupedToken)
  | 0, p => p.finish tokens
  | steps + 1, p =>
      if range.stop ≤ p.head then p.finish tokens
      else match tokens[p.head]? with
        | none => .error (.fault (.missingToken p.head))
        | some t =>
            match t.kind.opens, t.kind.operator? with
            | some b, _ => do
                let p ← p.settle tokens closedByGroup
                let (closing, out) ← groupBrackets tokens recurse p.head range.stop b p.out
                let out ← parenthesize tokens p.operandStart closing out
                operators tokens recurse range steps { p with out, head := closing + 1 }
            | none, some op =>
                match op.after, op.between with
                | some _, _ => do
                    let p ← p.settle tokens closedByGroup
                    let out ← take tokens p.head p.out
                    let out ← parenthesize tokens p.operandStart p.head out
                    operators tokens recurse range steps { p with out, head := p.head + 1 }
                | none, some operation => do
                    let p ← p.settle tokens (closedBy tokens operation p.head)
                    let application := OpenApplication.ofOperation operation p.operandStart p.head
                    let out ← take tokens p.head p.out
                    let p ← operand tokens recurse range range.length
                      { p with out, stack := application :: p.stack, head := p.head + 1 }
                    operators tokens recurse range steps p
                | none, none => .error (misplaced tokens .prefixAfterOperand p.head)
            | none, none =>
                if t.kind.isOperand then .error (misplaced tokens .operandAfterOperand p.head)
                else .error (misplaced tokens .invalidToken p.head)

/-- One expression that fills the range is grouped, at a depth of nesting. -/
def expressionWith
    (tokens : Array Token) (limit : Nat) (recurse : TokenRange → Emit) (depth : Nat)
    (range : TokenRange) : Emit := fun out =>
  if range.isEmpty then .error (misplaced tokens .emptyOperand range.start)
  else if limit ≤ depth then .error (.tooDeepAt tokens limit range.start)
  else do
    let p ← operand tokens recurse range range.length ⟨out, [.sentinel], range.start, out.size⟩
    operators tokens recurse range range.length p

/-- The grouping of an expression with a bound on the depth of recursion. -/
def expression (tokens : Array Token) (limit : Nat) : (fuel depth : Nat) → TokenRange → Emit
  | 0, _, _, _ => .error (.fault .exhausted)
  | fuel + 1, depth, range, out =>
      expressionWith tokens limit (expression tokens limit fuel (depth + 1)) depth range out

end ExprFront.Grouping

namespace ExprFront

/-- A bound on the depth of recursion that is enough for a nesting limit. -/
def recursionBound (limit : Nat) : Nat := 64 * (limit + 1)

/-- The expression that fills a range of tokens, with parentheses around every application. -/
def groupTokens (tokens : Array Token) (range : TokenRange) (limit : Nat) :
    Except ParseError Grouped :=
  match Grouping.expression tokens limit (recursionBound limit) 0 range #[] with
  | .ok entries => .ok ⟨entries⟩
  | .error e => .error e

end ExprFront
