import ExprFront.Expression.Attempt
import ExprFront.Grouping.Basic

/-!
# Reading expressions by priorities

An expression is an operand followed by operators that bind at least as tightly
as a least priority. The right operand of an operator is read in the same way
with a higher least priority, so that the operand takes only what binds more
tightly. What stands after an operand is taken at once.

Parentheses that were inserted by grouping make no node and cost no level of
nesting. Those of a chain that leans to the left open one directly after the
other; they are read from the inside out in a loop.

Recursion goes through `climb` and `fill` only. Both take a bound on its
depth as their first argument and pass a smaller one on; everything else is
written over the two functions as parameters, and its loops count the tokens
that are left.
-/

namespace ExprFront

/-- What is read: tokens, the parentheses among them that were inserted, and the nesting limit. -/
structure Reading where
  tokens : Array Token
  isInserted : Nat → Punctuation → Bool
  limit : Nat

namespace Reading

/-- Tokens as they were written. -/
def plain (tokens : Array Token) (limit : Nat) : Reading := ⟨tokens, fun _ _ => false, limit⟩

/-- Tokens with inserted parentheses. -/
def grouped (g : Grouped) (limit : Nat) : Reading := ⟨g.tokens, g.isInserted, limit⟩

end Reading

/-- Reads an expression from an index on: depth, index, end of the tokens, least priority. The
result is a tree and the index of the first token that does not belong to it. -/
abbrev Climber := (depth pos stop least : Nat) → Attempt (Tree × Nat)

/-- Reads an expression that fills a range, at a depth. -/
abbrev Filler := (depth : Nat) → TokenRange → Production → Attempt Tree

namespace Reading

/-- The kind of the token at an index. -/
def kind? (r : Reading) (index : Nat) : Option TokenKind := r.tokens[index]?.map Token.kind

/-- A misplaced token at an index. -/
def misplaced (r : Reading) (kind : Misplacement) (production : Production) (index : Nat) :
    ParseError :=
  .misplacedAt r.tokens kind production index

/-- One level deeper, unless the limit is reached. -/
def deeper {α : Type} (r : Reading) (depth index : Nat) (inner : Attempt α) : Attempt α :=
  if r.limit ≤ depth then .fail (.tooDeepAt r.tokens r.limit index) else inner

/-- The error of a token that is left over after a whole expression. -/
def surplus (r : Reading) (production : Production) (index : Nat) : ParseError :=
  match r.kind? index with
  | none => .fault (.missingToken index)
  | some k =>
      if k.isOperand then r.misplaced .operandAfterOperand production index
      else if k.before.isSome then r.misplaced .prefixAfterOperand production index
      else r.misplaced .invalidToken production index

/-- The items of a list in brackets are read one after the other, each filling its part. -/
def items (fill : TokenRange → Attempt Tree) (kind : NodeKind) (range : TokenRange) :
    (done : List Tree) → List TokenRange → Attempt Tree
  | done, [] => .ok (.node kind range done)
  | done, part :: parts =>
      match Attempt.after (.node kind range done) (fill part) with
      | .ok item => items fill kind range (done ++ [item]) parts
      | .error failure => .error failure

/-- A list in brackets, separated by commas, and the index after it. -/
def list
    (r : Reading) (fill : Filler) (depth pos stop : Nat) (b : Bracket) (kind : NodeKind)
    (production : Production) : Attempt (Tree × Nat) := do
  let separated ← Attempt.ofScope (Separated.resolve r.tokens ⟨pos, stop⟩ b .comma)
  let tree ← items (fun part => fill depth part production) kind separated.scope.range []
    separated.parts
  return (tree, separated.scope.stop)

/-- What a bracket group after an operand is: its operation, the node of its list, and the part of
the grammar. -/
def groupRole : Bracket → Operation × NodeKind × Production
  | .paren => (.functionCall, .arguments, .arguments)
  | .square => (.indexOperator, .indexArguments, .indexArguments)
  | .brace => (.typeCall, .typeArguments, .typeArguments)

/-- An operand with the bracket group after it. -/
def applied
    (r : Reading) (fill : Filler) (depth : Nat) (callee : Tree) (pos stop : Nat)
    (b : Bracket) : Attempt (Tree × Nat) :=
  let (op, kind, production) := groupRole b
  match Attempt.after callee (r.list fill depth pos stop b kind production) with
  | .ok (arguments, next) =>
      .ok (.node (.operation op) ⟨callee.range.start, next⟩ [callee, arguments], next)
  | .error failure => .error failure

/-- The right operand of an operation: from the right, the operation itself may follow in it and
it lies one level deeper; from the left, only what binds more tightly may follow. -/
def rightOperand (r : Reading) (climb : Climber) (depth pos stop : Nat) (op : Operation) :
    Attempt (Tree × Nat) :=
  if op.associativity = .right then
    r.deeper depth pos (climb (depth + 1) (pos + 1) stop op.priority)
  else climb depth (pos + 1) stop (op.priority + 1)

/-- Whether an operation may not follow another one of the same priority. -/
def clashes (previous : Option Operation) (op : Operation) : Bool :=
  previous.any fun p =>
    p.priority == op.priority && (p.associativity == .nonassoc || op.associativity == .nonassoc)

/-- An operand is extended by what follows it, as long as it binds at least as tightly as the
least priority. At most so many tokens are left. -/
def grow (r : Reading) (climb : Climber) (fill : Filler) (depth stop least : Nat) :
    (steps : Nat) → (previous : Option Operation) → (operand : Tree) → (pos : Nat) →
      Attempt (Tree × Nat)
  | 0, _, operand, pos => .ok (operand, pos)
  | steps + 1, previous, operand, pos =>
      if stop ≤ pos then .ok (operand, pos)
      else match r.kind? pos with
        | none => .failAfter operand (.fault (.missingToken pos))
        | some k =>
            let takesAfter := least ≤ Operation.afterPriority
            match (if takesAfter then k.opens else none), (if takesAfter then k.after else none),
                k.between with
            | some b, _, _ =>
                match r.applied fill depth operand pos stop b with
                | .ok (operand, next) =>
                    grow r climb fill depth stop least steps previous operand next
                | .error failure => .error failure
            | none, some op, _ =>
                let operand :=
                  .node (.operation op) ⟨operand.range.start, pos + 1⟩ [operand]
                grow r climb fill depth stop least steps previous operand (pos + 1)
            | none, none, none => .ok (operand, pos)
            | none, none, some op =>
                if op.priority < least then .ok (operand, pos)
                else if clashes previous op then
                  .failAfter operand (r.misplaced .nonAssociative .expression pos)
                else if stop ≤ pos + 1 then
                  .failAfter operand (r.misplaced .missingOperand .expression pos)
                else
                  match Attempt.after operand (r.rightOperand climb depth pos stop op) with
                  | .ok (right, next) =>
                      let range := ⟨operand.range.start, right.range.stop⟩
                      grow r climb fill depth stop least steps (some op)
                        (.node (.operation op) range [operand, right]) next
                  | .error failure => .error failure

/-- The number of inserted opening parentheses that stand one after the other from an index on. -/
def insertedRun (r : Reading) (stop : Nat) : (steps pos : Nat) → Nat
  | 0, _ => 0
  | steps + 1, pos =>
      if pos < stop ∧ r.isInserted pos .lparen then 1 + insertedRun r stop steps (pos + 1) else 0

/-- Inserted groups are closed one after the other; before each but the first its operand is
extended to the end of the group. -/
def closeInserted
    (r : Reading) (climb : Climber) (fill : Filler) (depth pos stop : Nat) :
    (levels : Nat) → (first : Bool) → (operand : Tree) → (next : Nat) → Attempt (Tree × Nat)
  | 0, _, operand, next => .ok (operand, next)
  | levels + 1, first, operand, next =>
      let extended :=
        if first then .ok (operand, next)
        else r.grow climb fill depth stop 0 (stop - next) none operand next
      match extended with
      | .error failure => .error failure
      | .ok (operand, next) =>
          if r.isInserted next .rparen then
            closeInserted r climb fill depth pos stop levels false operand (next + 1)
          else if next < stop then .failAfter operand (r.surplus .grouping next)
          else .failAfter operand (r.misplaced .invalidToken .grouping pos)

/-- A run of inserted groups, which are read from the inside out. -/
def insertedGroups
    (r : Reading) (climb : Climber) (fill : Filler) (depth pos stop : Nat) :
    Attempt (Tree × Nat) :=
  let levels := r.insertedRun stop (stop - pos) pos
  if stop ≤ pos + levels then .fail (r.misplaced .emptyOperand .grouping pos)
  else
    match climb depth (pos + levels) stop 0 with
    | .ok (operand, next) => r.closeInserted climb fill depth pos stop levels true operand next
    | .error failure => .error failure

/-- Grouping parentheses around an expression. -/
def subexpression (r : Reading) (fill : Filler) (depth pos stop : Nat) :
    Attempt (Tree × Nat) := do
  let scope ← Attempt.ofScope (Scope.matching r.tokens ⟨pos, stop⟩ .paren)
  if scope.interior.isEmpty then .fail (r.misplaced .emptyOperand .subexpression pos)
  else
    let inner ← fill depth scope.interior .subexpression
    return (.node .subexpression scope.range [inner], scope.stop)

/-- The error of a token that starts no operand. After an operator, another operator means that
the first one lacks its operand. -/
def noOperand (r : Reading) (k : TokenKind) (pos : Nat) : ParseError :=
  let afterOperator := 0 < pos ∧ (r.kind? (pos - 1)).any TokenKind.isOperator
  if afterOperator ∧ k.isOperator then r.misplaced .missingOperand .primary pos
  else r.misplaced .invalidStart .primary pos

/-- A single token or a bracket group in the place of an operand. -/
def primary
    (r : Reading) (climb : Climber) (fill : Filler) (depth pos stop : Nat)
    (k : TokenKind) : Attempt (Tree × Nat) :=
  match NodeKind.ofToken? k with
  | some leaf => .ok (.leaf leaf ⟨pos, pos + 1⟩, pos + 1)
  | none =>
      match k.opens with
      | some .paren =>
          if r.isInserted pos .lparen then r.insertedGroups climb fill depth pos stop
          else r.subexpression fill depth pos stop
      | some .square => r.list fill depth pos stop .square .listLiteral .listLiteral
      | some .brace => r.list fill depth pos stop .brace .initializerList .initializerList
      | none => .fail (r.noOperand k pos)

/-- An operand with the operators before it, each of which lies one level deeper. -/
def prefixed (r : Reading) (climb : Climber) (fill : Filler) (depth pos stop : Nat) :
    Attempt (Tree × Nat) :=
  match r.kind? pos with
  | none => .fail (.fault (.missingToken pos))
  | some k =>
      match k.before with
      | none => r.primary climb fill depth pos stop k
      | some op =>
          if stop ≤ pos + 1 then .fail (r.misplaced .missingOperand .primary pos)
          else
            match r.deeper depth pos
                (climb (depth + 1) (pos + 1) stop Operation.beforePriority) with
            | .ok (operand, next) =>
                .ok (.node (.operation op) ⟨pos, operand.range.stop⟩ [operand], next)
            | .error failure => .error failure

/-- An operand and what follows it. -/
def climbWith (r : Reading) (climb : Climber) (fill : Filler) : Climber :=
  fun depth pos stop least =>
    match r.prefixed climb fill depth pos stop with
    | .ok (operand, next) =>
        r.grow climb fill depth stop least (stop - next) none operand next
    | .error failure => .error failure

/-- The range without the parentheses that enclose all of it. -/
def dropOuterParens (r : Reading) (production : Production) :
    (steps : Nat) → TokenRange → Except ParseError TokenRange
  | 0, range => .ok range
  | steps + 1, range =>
      if range.isEmpty ∨ r.kind? range.start ≠ some (.punctuation .lparen) then .ok range
      else do
        let scope ← liftScope (Scope.matching r.tokens range .paren)
        if scope.stop ≠ range.stop then .ok range
        else if scope.interior.isEmpty then
          .error (r.misplaced .emptyOperand production scope.start)
        else dropOuterParens r production steps scope.interior

/-- An expression that fills a range, one level deeper. -/
def fillWith (r : Reading) (climb : Climber) : Filler := fun depth range production =>
  r.deeper depth range.start do
    let range ← Attempt.lift (r.dropOuterParens production range.length range)
    if range.isEmpty then .fail (r.misplaced .emptyOperand production range.start)
    else
      let (tree, next) ← climb (depth + 1) range.start range.stop 0
      if next < range.stop then .failAfter tree (r.surplus production next)
      else return tree

mutual

/-- The expression from an index on, with a bound on the depth of recursion. -/
def climb (r : Reading) : (fuel : Nat) → Climber
  | 0, _, _, _, _ => .fail (.fault .exhausted)
  | fuel + 1, depth, pos, stop, least =>
      r.climbWith (climb r fuel) (fill r fuel) depth pos stop least

/-- The expression that fills a range, with a bound on the depth of recursion. -/
def fill (r : Reading) : (fuel : Nat) → Filler
  | 0, _, _, _ => .fail (.fault .exhausted)
  | fuel + 1, depth, range, production => r.fillWith (climb r fuel) depth range production

end

/-- The tree of the expression that fills a range. -/
def whole (r : Reading) (range : TokenRange) (production : Production) : Attempt Tree :=
  r.fill (recursionBound r.limit) 0 range production

/-- The tree of the longest expression at the start of a range, and the index after it. -/
def longest (r : Reading) (range : TokenRange) : Attempt (Tree × Nat) :=
  if range.isEmpty then .fail (r.misplaced .emptyOperand .expression range.start)
  else r.climb (recursionBound r.limit) 0 range.start range.stop 0

end Reading

end ExprFront
