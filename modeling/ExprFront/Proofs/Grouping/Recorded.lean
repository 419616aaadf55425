import ExprFront.Grouping.Basic

/-!
# Grouping with a record

A run of the grouping is written once more with a record of what it does: each
time that the operators after an operand are about to be read, the progress of
the expression, and at each pair of parentheses that is inserted, the result
before and after, with the applications that still wait for it. These are the
open ones of the expression itself and of all expressions around it, which are
passed on to the parts of groups. The record is kept when the run fails.
-/

namespace ExprFront.Grouping

/-- The applications on a stack above its sentinel. -/
def waiting (stack : List OpenApplication) : List OpenApplication := stack.dropLast

/-- What a run records. -/
inductive Event where
  /-- The operators after an operand are read next, in an expression that began at a length of the
  result. -/
  | turn (begun : Nat) (p : Progress)
  /-- Parentheses were put around a span while these applications wait. -/
  | wrap (pending : List OpenApplication) (before after : Array GroupedToken)

/-- A result with the record of the run that led to it. -/
structure Recorded (α : Type) where
  events : List Event
  result : Except ParseError α

namespace Recorded

variable {α β : Type}

/-- A result of which nothing is recorded. -/
def quiet (result : Except ParseError α) : Recorded α := ⟨[], result⟩

/-- One event is recorded. -/
def note (event : Event) : Recorded Unit := ⟨[event], .ok ()⟩

/-- The record of a sequence is that of its steps one after the other. -/
def andThen (run : Recorded α) (next : α → Recorded β) : Recorded β :=
  match run.result with
  | .ok a => ⟨run.events ++ (next a).events, (next a).result⟩
  | .error e => ⟨run.events, .error e⟩

instance : Monad Recorded where
  pure a := quiet (.ok a)
  bind := andThen

end Recorded

/-- The step from the result so far to a longer one, with a record. -/
abbrev Recorder := Array GroupedToken → Recorded (Array GroupedToken)

namespace Recorded

/-- Parentheses are put around the result from `start` on, while some applications wait. -/
def parenthesize (tokens : Array Token) (pending : List OpenApplication) (start anchor : Nat) :
    Recorder := fun out =>
  match Grouping.parenthesize tokens start anchor out with
  | .ok after => ⟨[.wrap pending out after], .ok after⟩
  | .error e => ⟨[], .error e⟩

/-- Open applications are closed from the innermost on. Those that are left wait, and so do the
`outer` ones of the expressions around this one. -/
def settle (tokens : Array Token) (outer : List OpenApplication)
    (closes : OpenApplication → Except ParseError Bool) :
    List OpenApplication → Array GroupedToken → Nat →
      Recorded (List OpenApplication × Array GroupedToken × Nat)
  | [], _, _ => quiet (.error (.fault .sentinelClosed))
  | [sentinel], out, operandStart => return ([sentinel], out, operandStart)
  | top :: below :: rest, out, operandStart => do
      if ← quiet (closes top) then
        let pending := waiting (below :: rest) ++ outer
        let out ← parenthesize tokens pending top.start top.operator out
        settle tokens outer closes (below :: rest) out top.start
      else return (top :: below :: rest, out, operandStart)

/-- The grouping with some of its open applications closed. -/
def settled (tokens : Array Token) (outer : List OpenApplication) (p : Progress)
    (closes : OpenApplication → Except ParseError Bool) : Recorded Progress := do
  let (stack, out, operandStart) ← settle tokens outer closes p.stack p.out p.operandStart
  return { p with stack, out, operandStart }

/-- The result when no application is left open. -/
def finish (tokens : Array Token) (outer : List OpenApplication) (p : Progress) :
    Recorded (Array GroupedToken) := do
  let p ← settled tokens outer p fun _ => .ok true
  return p.out

/-- The parts of a bracket group are grouped one after the other. -/
def groupParts (tokens : Array Token) (recurse : TokenRange → Recorder) :
    List TokenRange → Recorder
  | [], out => return out
  | part :: parts, out => do
      let out ← quiet (take tokens (part.start - 1) out)
      let out ← recurse part out
      groupParts tokens recurse parts out

/-- A bracket group is copied with its parts grouped. -/
def groupBrackets (tokens : Array Token) (recurse : TokenRange → Recorder) (opening stop : Nat)
    (b : Bracket) (out : Array GroupedToken) : Recorded (Nat × Array GroupedToken) := do
  let separated ← quiet (liftScope (Separated.resolve tokens ⟨opening, stop⟩ b .comma))
  let out ← quiet (take tokens separated.scope.start out)
  let out ← match separated.parts with
    | [] => pure out
    | part :: parts => do
        let out ← recurse part out
        groupParts tokens recurse parts out
  let closing := separated.scope.stop - 1
  let out ← quiet (take tokens closing out)
  return (closing, out)

/-- An operand is read. The applications that are open by then wait while a group in its place is
copied. -/
def operand (tokens : Array Token) (recurse : List OpenApplication → TokenRange → Recorder)
    (outer : List OpenApplication) (range : TokenRange) : Nat → Progress → Recorded Progress
  | 0, p => quiet (.error (misplaced tokens .missingOperand (p.head - 1)))
  | steps + 1, p =>
      if range.stop ≤ p.head then quiet (.error (misplaced tokens .missingOperand (p.head - 1)))
      else match tokens[p.head]? with
        | none => quiet (.error (misplaced tokens .missingOperand (p.head - 1)))
        | some t =>
            if t.kind.before.isSome then do
              let application : OpenApplication :=
                ⟨.before, Operation.beforePriority, .right, p.out.size, p.head⟩
              let out ← quiet (take tokens p.head p.out)
              operand tokens recurse outer range steps
                { p with out, stack := application :: p.stack, head := p.head + 1 }
            else match t.kind.opens with
              | some b => do
                  quiet (requireFilled tokens p.head range.stop b)
                  let operandStart := p.out.size
                  let pending := waiting p.stack ++ outer
                  let (closing, out) ←
                    groupBrackets tokens (recurse pending) p.head range.stop b p.out
                  return { p with out, operandStart, head := closing + 1 }
              | none =>
                  if t.kind.isOperand then do
                    let operandStart := p.out.size
                    let out ← quiet (take tokens p.head p.out)
                    return { p with out, operandStart, head := p.head + 1 }
                  else if p.head ≠ range.start ∧ t.kind.isOperator then
                    quiet (.error (misplaced tokens .missingOperand p.head))
                  else quiet (.error (misplaced tokens .invalidStart p.head))

/-- What follows an operand is read, and each turn of the loop is recorded. -/
def operators (tokens : Array Token) (recurse : List OpenApplication → TokenRange → Recorder)
    (outer : List OpenApplication) (begun : Nat) (range : TokenRange) :
    Nat → Progress → Recorded (Array GroupedToken)
  | 0, p => do
      note (.turn begun p)
      finish tokens outer p
  | steps + 1, p => do
      note (.turn begun p)
      if range.stop ≤ p.head then finish tokens outer p
      else match tokens[p.head]? with
        | none => quiet (.error (.fault (.missingToken p.head)))
        | some t =>
            match t.kind.opens, t.kind.operator? with
            | some b, _ => do
                let p ← settled tokens outer p closedByGroup
                let pending := waiting p.stack ++ outer
                let (closing, out) ←
                  groupBrackets tokens (recurse pending) p.head range.stop b p.out
                let out ← parenthesize tokens pending p.operandStart closing out
                operators tokens recurse outer begun range steps
                  { p with out, head := closing + 1 }
            | none, some op =>
                match op.after, op.between with
                | some _, _ => do
                    let p ← settled tokens outer p closedByGroup
                    let pending := waiting p.stack ++ outer
                    let out ← quiet (take tokens p.head p.out)
                    let out ← parenthesize tokens pending p.operandStart p.head out
                    operators tokens recurse outer begun range steps
                      { p with out, head := p.head + 1 }
                | none, some operation => do
                    let p ← settled tokens outer p (closedBy tokens operation p.head)
                    let application := OpenApplication.ofOperation operation p.operandStart p.head
                    let out ← quiet (take tokens p.head p.out)
                    let p ← operand tokens recurse outer range range.length
                      { p with out, stack := application :: p.stack, head := p.head + 1 }
                    operators tokens recurse outer begun range steps p
                | none, none => quiet (.error (misplaced tokens .prefixAfterOperand p.head))
            | none, none =>
                if t.kind.isOperand then
                  quiet (.error (misplaced tokens .operandAfterOperand p.head))
                else quiet (.error (misplaced tokens .invalidToken p.head))

/-- One expression that fills the range is grouped, within expressions of which some applications
are open. -/
def expressionWith (tokens : Array Token) (limit : Nat)
    (recurse : List OpenApplication → TokenRange → Recorder) (depth : Nat)
    (outer : List OpenApplication) (range : TokenRange) : Recorder := fun out =>
  if range.isEmpty then quiet (.error (misplaced tokens .emptyOperand range.start))
  else if limit ≤ depth then quiet (.error (.tooDeepAt tokens limit range.start))
  else do
    let p ← operand tokens recurse outer range range.length
      ⟨out, [.sentinel], range.start, out.size⟩
    operators tokens recurse outer out.size range range.length p

/-- The grouping of an expression with its record. -/
def expression (tokens : Array Token) (limit : Nat) :
    (fuel depth : Nat) → List OpenApplication → TokenRange → Recorder
  | 0, _, _, _, _ => quiet (.error (.fault .exhausted))
  | fuel + 1, depth, outer, range, out =>
      expressionWith tokens limit (expression tokens limit fuel (depth + 1)) depth outer range out

end Recorded

end ExprFront.Grouping
