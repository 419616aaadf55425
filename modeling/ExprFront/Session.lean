import ExprFront.Arena.Build
import ExprFront.Arena.Simplify
import ExprFront.Config
import ExprFront.Expression.Climb
import ExprFront.Statement

/-!
# Sessions

A session reads any number of expressions and programs over the same tokens
into one arena. A call that fails leaves the nodes that it had finished in the
arena, without a parent; they are never used again.
-/

namespace ExprFront

/-- Tokens, choices and the arena that the trees are put into. -/
structure Session where
  tokens : Array Token
  config : Config
  arena : Arena

namespace Session

/-- A session with nothing read yet. -/
def start (tokens : Array Token) (config : Config) : Session := ⟨tokens, config, .empty⟩

/-- What a call answers, and the session after it. -/
abbrev Answer (α : Type) := Except ParseError α × Session

/-- The tokens as they were written. -/
def reading (s : Session) : Reading := .plain s.tokens s.config.limit

/-- The session with trees left over from a failed attempt. -/
def abandon (s : Session) (trees : List Tree) : Session :=
  match s.arena.buildAll trees with
  | .ok (_, arena) => { s with arena }
  | .error _ => s

/-- The answer of a failed attempt. -/
def refuse {α : Type} (s : Session) (failure : Failure) : Answer α :=
  (.error failure.error, s.abandon failure.finished)

/-- The answer of an operation on the arena. -/
def commit {α : Type} (s : Session) : Except Fault (α × Arena) → Answer α
  | .ok (a, arena) => (.ok a, { s with arena })
  | .error f => (.error (.fault f), s)

end Session

/-- Whether a bracket group stands directly after an operand somewhere in the range. -/
def hasGroupAfterOperand (tokens : Array Token) (range : TokenRange) : Bool :=
  (List.range' (range.start + 1) (range.length - 1)).any fun i =>
    tokens[i]?.any (·.kind.opens.isSome) && tokens[i - 1]?.any (·.kind.canEndOperand)

namespace Session

/-- Whether the expression in a range is grouped before it is read. -/
def normalizes (s : Session) (range : TokenRange) : Bool :=
  match s.config.normalization with
  | .never => false
  | .always => true
  | .auto => hasGroupAfterOperand s.tokens range

/-- The tree of a grouped expression is put into the arena: it is built apart, its ranges are
mapped back to the tokens as they were written, and the result is copied. -/
def adopt (s : Session) (g : Grouped) (tree : Tree) : Except Fault (NodeId × Arena) := do
  let (root, inner) ← Arena.empty.build tree
  s.arena.copyTree (inner.mapRanges g.sourceRange) root

/-- The expression in a range by way of its grouped form. -/
def normalized (s : Session) (range : TokenRange) : Answer NodeId :=
  match groupTokens s.tokens range s.config.limit with
  | .error e => (.error e, s)
  | .ok g =>
      match (Reading.grouped g s.config.limit).whole ⟨0, g.entries.size⟩ .grouping with
      | .error failure => (.error failure.error, s)
      | .ok tree => s.commit (s.adopt g tree)

/-- The expression in a range, read as it was written. -/
def direct (s : Session) (range : TokenRange) : Answer NodeId :=
  match s.reading.whole range .expression with
  | .error failure => s.refuse failure
  | .ok tree => s.commit (s.arena.build tree)

/-- A node of a statement is put above the root of its expression, and collapsed into it if the
configuration asks for that. -/
def enclose (s : Session) (range : TokenRange) (inner : NodeId) :
    Except Fault (NodeId × Arena) := do
  let (id, arena) := s.arena.add .expression range
  let arena ← arena.pushBack id inner
  let arena ← if s.config.simplify then arena.simplify id else .ok arena
  return (id, arena)

/-- The expression that fills a range. -/
def expression (s : Session) (range : TokenRange) : Answer NodeId :=
  match if s.normalizes range then s.normalized range else s.direct range with
  | (.error e, s) => (.error e, s)
  | (.ok inner, s) => s.commit (s.enclose range inner)

/-- The longest expression at the start of a range, and the index after it. -/
def longest (s : Session) (range : TokenRange) : Answer (NodeId × Nat) :=
  match s.reading.longest range with
  | .error failure => s.refuse failure
  | .ok (tree, next) =>
      s.commit ((s.arena.build tree).map fun (id, arena) => ((id, next), arena))

/-- The value statements are read one after the other and put below the node of the program. -/
def programStatements (program : NodeId) : List Statement → Session → Answer NodeId
  | [], s => (.ok program, s)
  | statement :: more, s =>
      match statement.kind with
      | .directive _ => programStatements program more s
      | .value =>
          match s.expression statement.range with
          | (.error e, s) => (.error e, s)
          | (.ok root, s) =>
              match s.arena.pushBack program root with
              | .ok arena => programStatements program more { s with arena }
              | .error f => (.error (.fault f), s)

/-- The program in a range, of which the statements are known. -/
def program (s : Session) (range : TokenRange) (statements : List Statement) : Answer NodeId :=
  let (id, arena) := s.arena.add .program range
  programStatements id statements { s with arena }

end Session

end ExprFront
