import ExprFront.Expression.Climb

/-!
# Counting the open levels

The reader takes the depth of nesting as an argument. The depth can as well be
kept in one counter, which is raised where a level is entered and lowered where
it is left; `Counted` has the functions of the reader in this form. Whatever
the outcome of such a function is, the counter is what it was before and the
outcome is that of the reader at this depth. So no failure leaves a level open.
-/

namespace ExprFront

/-- An attempt in which the open levels are counted. The counter outlives a failure. -/
abbrev Counting (α : Type) := ExceptT Failure (StateM Nat) α

namespace Counting

variable {α β : Type}

/-- The outcome from a counter on, and the counter after it. -/
def outcome (x : Counting α) (depth : Nat) : Attempt α × Nat := x.run.run depth

/-- An attempt that does not count. -/
def ofAttempt (attempt : Attempt α) : Counting α := ExceptT.mk fun depth => (attempt, depth)

/-- An attempt before which a tree was finished. -/
def after (t : Tree) (x : Counting α) : Counting α :=
  ExceptT.mk fun depth => ((x.outcome depth).1.after t, (x.outcome depth).2)

/-- One level is open during the attempt, unless the limit is reached. -/
def nested (r : Reading) (index : Nat) (x : Counting α) : Counting α :=
  ExceptT.mk fun depth =>
    if r.limit ≤ depth then (Attempt.fail (.tooDeepAt r.tokens r.limit index), depth)
    else ((x.outcome (depth + 1)).1, (x.outcome (depth + 1)).2 - 1)

end Counting

/-! ## The reader with a counter -/

namespace Counted

/-- Reads an expression from an index on: index, end of the tokens, least priority. -/
abbrev Climber := (pos stop least : Nat) → Counting (Tree × Nat)

/-- Reads an expression that fills a range. -/
abbrev Filler := TokenRange → Production → Counting Tree

/-- The items of a list in brackets are read one after the other, each filling its part. -/
def items (fill : TokenRange → Counting Tree) (kind : NodeKind) (range : TokenRange) :
    (done : List Tree) → List TokenRange → Counting Tree
  | done, [] => pure (.node kind range done)
  | done, part :: parts => do
      let item ← Counting.after (.node kind range done) (fill part)
      items fill kind range (done ++ [item]) parts

/-- A list in brackets, separated by commas, and the index after it. -/
def list
    (r : Reading) (fill : Filler) (pos stop : Nat) (b : Bracket) (kind : NodeKind)
    (production : Production) : Counting (Tree × Nat) := do
  let separated ← .ofAttempt (.ofScope (Separated.resolve r.tokens ⟨pos, stop⟩ b .comma))
  let tree ← items (fun part => fill part production) kind separated.scope.range []
    separated.parts
  return (tree, separated.scope.stop)

/-- An operand with the bracket group after it. -/
def applied (r : Reading) (fill : Filler) (callee : Tree) (pos stop : Nat) (b : Bracket) :
    Counting (Tree × Nat) := do
  let (op, kind, production) := Reading.groupRole b
  let (arguments, next) ← Counting.after callee (list r fill pos stop b kind production)
  return (.node (.operation op) ⟨callee.range.start, next⟩ [callee, arguments], next)

/-- The right operand of an operation, with one level open if it groups from the right. -/
def rightOperand (r : Reading) (climb : Climber) (pos stop : Nat) (op : Operation) :
    Counting (Tree × Nat) :=
  if op.associativity = .right then .nested r pos (climb (pos + 1) stop op.priority)
  else climb (pos + 1) stop (op.priority + 1)

/-- An operand is extended by what follows it. -/
def grow (r : Reading) (climb : Climber) (fill : Filler) (stop least : Nat) :
    (steps : Nat) → (previous : Option Operation) → (operand : Tree) → (pos : Nat) →
      Counting (Tree × Nat)
  | 0, _, operand, pos => pure (operand, pos)
  | steps + 1, previous, operand, pos =>
      if stop ≤ pos then pure (operand, pos)
      else match r.kind? pos with
        | none => .ofAttempt (.failAfter operand (.fault (.missingToken pos)))
        | some k =>
            let takesAfter := least ≤ Operation.afterPriority
            match (if takesAfter then k.opens else none), (if takesAfter then k.after else none),
                k.between with
            | some b, _, _ => do
                let (operand, next) ← applied r fill operand pos stop b
                grow r climb fill stop least steps previous operand next
            | none, some op, _ =>
                let operand :=
                  .node (.operation op) ⟨operand.range.start, pos + 1⟩ [operand]
                grow r climb fill stop least steps previous operand (pos + 1)
            | none, none, none => pure (operand, pos)
            | none, none, some op =>
                if op.priority < least then pure (operand, pos)
                else if Reading.clashes previous op then
                  .ofAttempt (.failAfter operand (r.misplaced .nonAssociative .expression pos))
                else if stop ≤ pos + 1 then
                  .ofAttempt (.failAfter operand (r.misplaced .missingOperand .expression pos))
                else do
                  let (right, next) ← Counting.after operand (rightOperand r climb pos stop op)
                  let range := ⟨operand.range.start, right.range.stop⟩
                  grow r climb fill stop least steps (some op)
                    (.node (.operation op) range [operand, right]) next

/-- Inserted groups are closed one after the other. -/
def closeInserted (r : Reading) (climb : Climber) (fill : Filler) (pos stop : Nat) :
    (levels : Nat) → (first : Bool) → (operand : Tree) → (next : Nat) → Counting (Tree × Nat)
  | 0, _, operand, next => pure (operand, next)
  | levels + 1, first, operand, next => do
      let extended : Counting (Tree × Nat) :=
        if first then pure (operand, next)
        else grow r climb fill stop 0 (stop - next) none operand next
      let (operand, next) ← extended
      if r.isInserted next .rparen then
        closeInserted r climb fill pos stop levels false operand (next + 1)
      else if next < stop then .ofAttempt (.failAfter operand (r.surplus .grouping next))
      else .ofAttempt (.failAfter operand (r.misplaced .invalidToken .grouping pos))

/-- A run of inserted groups, which are read from the inside out. -/
def insertedGroups (r : Reading) (climb : Climber) (fill : Filler) (pos stop : Nat) :
    Counting (Tree × Nat) :=
  let levels := r.insertedRun stop (stop - pos) pos
  if stop ≤ pos + levels then .ofAttempt (.fail (r.misplaced .emptyOperand .grouping pos))
  else do
    let (operand, next) ← climb (pos + levels) stop 0
    closeInserted r climb fill pos stop levels true operand next

/-- Grouping parentheses around an expression. -/
def subexpression (r : Reading) (fill : Filler) (pos stop : Nat) : Counting (Tree × Nat) := do
  let scope ← .ofAttempt (.ofScope (Scope.matching r.tokens ⟨pos, stop⟩ .paren))
  if scope.interior.isEmpty then
    .ofAttempt (.fail (r.misplaced .emptyOperand .subexpression pos))
  else
    let inner ← fill scope.interior .subexpression
    return (.node .subexpression scope.range [inner], scope.stop)

/-- A single token or a bracket group in the place of an operand. -/
def primary (r : Reading) (climb : Climber) (fill : Filler) (pos stop : Nat) (k : TokenKind) :
    Counting (Tree × Nat) :=
  match NodeKind.ofToken? k with
  | some leaf => pure (.leaf leaf ⟨pos, pos + 1⟩, pos + 1)
  | none =>
      match k.opens with
      | some .paren =>
          if r.isInserted pos .lparen then insertedGroups r climb fill pos stop
          else subexpression r fill pos stop
      | some .square => list r fill pos stop .square .listLiteral .listLiteral
      | some .brace => list r fill pos stop .brace .initializerList .initializerList
      | none => .ofAttempt (.fail (r.noOperand k pos))

/-- An operand with the operators before it, for each of which one level is open. -/
def prefixed (r : Reading) (climb : Climber) (fill : Filler) (pos stop : Nat) :
    Counting (Tree × Nat) :=
  match r.kind? pos with
  | none => .ofAttempt (.fail (.fault (.missingToken pos)))
  | some k =>
      match k.before with
      | none => primary r climb fill pos stop k
      | some op =>
          if stop ≤ pos + 1 then
            .ofAttempt (.fail (r.misplaced .missingOperand .primary pos))
          else do
            let (operand, next) ← Counting.nested r pos
              (climb (pos + 1) stop Operation.beforePriority)
            return (.node (.operation op) ⟨pos, operand.range.stop⟩ [operand], next)

/-- An operand and what follows it. -/
def climbWith (r : Reading) (climb : Climber) (fill : Filler) : Climber :=
  fun pos stop least => do
    let (operand, next) ← prefixed r climb fill pos stop
    grow r climb fill stop least (stop - next) none operand next

/-- An expression that fills a range, with one level open. -/
def fillWith (r : Reading) (climb : Climber) : Filler := fun range production =>
  .nested r range.start do
    let range ← .ofAttempt (.lift (r.dropOuterParens production range.length range))
    if range.isEmpty then .ofAttempt (.fail (r.misplaced .emptyOperand production range.start))
    else
      let (tree, next) ← climb range.start range.stop 0
      if next < range.stop then .ofAttempt (.failAfter tree (r.surplus production next))
      else return tree

mutual

/-- The expression from an index on, with a bound on the depth of recursion. -/
def climb (r : Reading) : (fuel : Nat) → Climber
  | 0, _, _, _ => .ofAttempt (.fail (.fault .exhausted))
  | fuel + 1, pos, stop, least => climbWith r (climb r fuel) (fill r fuel) pos stop least

/-- The expression that fills a range, with a bound on the depth of recursion. -/
def fill (r : Reading) : (fuel : Nat) → Filler
  | 0, _, _ => .ofAttempt (.fail (.fault .exhausted))
  | fuel + 1, range, production => fillWith r (climb r fuel) range production

end

/-- The tree of the expression that fills a range. -/
def whole (r : Reading) (range : TokenRange) (production : Production) : Counting Tree :=
  fill r (recursionBound r.limit) range production

/-- The tree of the longest expression at the start of a range, and the index after it. -/
def longest (r : Reading) (range : TokenRange) : Counting (Tree × Nat) :=
  if range.isEmpty then .ofAttempt (.fail (r.misplaced .emptyOperand .expression range.start))
  else climb r (recursionBound r.limit) range.start range.stop 0

end Counted

/-! ## The counter is released -/

namespace Counting

variable {α β : Type} {depth : Nat}

/-- At a depth the outcome is that of an attempt, and the counter is the depth again. -/
def Releases (x : Counting α) (depth : Nat) (attempt : Attempt α) : Prop :=
  x.outcome depth = (attempt, depth)

theorem releases_pure
    (a : α) : Releases (pure a) depth (.ok a) := rfl

theorem releases_ofAttempt
    (attempt : Attempt α) : Releases (ofAttempt attempt) depth attempt := rfl

theorem Releases.after
    {x : Counting α} {attempt : Attempt α} (h : x.Releases depth attempt) (t : Tree) :
    (x.after t).Releases depth (attempt.after t) := by
  have houtcome : (x.after t).outcome depth = ((x.outcome depth).1.after t, (x.outcome depth).2) :=
    rfl
  rw [Releases, houtcome, h]

/-- A level that is entered is left again, also by a failure. -/
theorem Releases.nested
    {r : Reading} {x : Counting α} {attempt : Attempt α} (h : x.Releases (depth + 1) attempt)
    (index : Nat) : (x.nested r index).Releases depth (r.deeper depth index attempt) := by
  have houtcome : (x.nested r index).outcome depth =
      if r.limit ≤ depth then (Attempt.fail (.tooDeepAt r.tokens r.limit index), depth)
      else ((x.outcome (depth + 1)).1, (x.outcome (depth + 1)).2 - 1) := rfl
  rw [Releases, houtcome, Reading.deeper, h]
  split
  · rfl
  · rfl

/-- The counter is released between two attempts and after the second. -/
theorem Releases.bind
    {x : Counting α} {attempt : Attempt α} {next : α → Counting β} {result : Attempt β}
    (h : x.Releases depth attempt) (hok : ∀ a, attempt = .ok a → (next a).Releases depth result)
    (herror : ∀ failure, attempt = .error failure → result = .error failure) :
    (x >>= next).Releases depth result := by
  have houtcome : (x >>= next).outcome depth =
      (ExceptT.bindCont next (x.outcome depth).1).run (x.outcome depth).2 := rfl
  rw [Releases, houtcome, h]
  cases attempt with
  | ok a => exact hok a rfl
  | error failure =>
      rw [herror failure rfl]
      rfl

end Counting

namespace Counted

open Counting

/-- Reading from an index on has the outcome of the reader at every depth. -/
def ClimbReleases (count : Climber) (climb : ExprFront.Climber) : Prop :=
  ∀ depth pos stop least, (count pos stop least).Releases depth (climb depth pos stop least)

/-- Filling a range has the outcome of the reader at every depth. -/
def FillReleases (count : Filler) (fill : ExprFront.Filler) : Prop :=
  ∀ depth range production, (count range production).Releases depth (fill depth range production)

section Parameters

variable {r : Reading} {count : Climber} {climb : ExprFront.Climber} {countFill : Filler}
  {fill : ExprFront.Filler} {depth : Nat}

theorem releases_items
    {countPart : TokenRange → Counting Tree} {fillPart : TokenRange → Attempt Tree}
    (hpart : ∀ part, (countPart part).Releases depth (fillPart part)) (kind : NodeKind)
    (range : TokenRange) (done : List Tree) (parts : List TokenRange) :
    (items countPart kind range done parts).Releases depth
      (Reading.items fillPart kind range done parts) := by
  induction parts generalizing done with
  | nil => exact releases_pure _
  | cons part parts ih =>
      rw [items, Reading.items]
      refine ((hpart part).after (.node kind range done)).bind ?_ ?_
      · intro item hitem
        rw [hitem]
        exact ih (done ++ [item])
      · intro failure hfailure
        rw [hfailure]

theorem releases_list
    (hfill : FillReleases countFill fill) (pos stop : Nat) (b : Bracket) (kind : NodeKind)
    (production : Production) :
    (list r countFill pos stop b kind production).Releases depth
      (r.list fill depth pos stop b kind production) := by
  unfold list Reading.list
  refine (releases_ofAttempt _).bind ?_ ?_
  · intro separated hseparated
    rw [hseparated]
    refine (releases_items (fun part => hfill depth part production) kind _ [] _).bind ?_ ?_
    · intro tree htree
      simp only [htree, bind, Except.bind]
      exact releases_pure _
    · intro failure hfailure
      simp only [hfailure, bind, Except.bind]
  · intro failure hfailure
    rw [hfailure]
    rfl

theorem releases_applied
    (hfill : FillReleases countFill fill) (callee : Tree) (pos stop : Nat) (b : Bracket) :
    (applied r countFill callee pos stop b).Releases depth
      (r.applied fill depth callee pos stop b) := by
  unfold applied Reading.applied
  obtain ⟨op, kind, production⟩ := Reading.groupRole b
  dsimp only
  refine ((releases_list hfill pos stop b kind production).after callee).bind ?_ ?_
  · intro found hfound
    rw [hfound]
    exact releases_pure _
  · intro failure hfailure
    rw [hfailure]

theorem releases_rightOperand
    (hclimb : ClimbReleases count climb) (pos stop : Nat) (op : Operation) :
    (rightOperand r count pos stop op).Releases depth
      (r.rightOperand climb depth pos stop op) := by
  unfold rightOperand Reading.rightOperand
  split
  · exact (hclimb (depth + 1) _ _ _).nested pos
  · exact hclimb depth _ _ _

theorem releases_grow
    (hclimb : ClimbReleases count climb) (hfill : FillReleases countFill fill)
    (stop least steps : Nat) (previous : Option Operation) (operand : Tree) (pos : Nat) :
    (grow r count countFill stop least steps previous operand pos).Releases depth
      (r.grow climb fill depth stop least steps previous operand pos) := by
  induction steps generalizing previous operand pos with
  | zero => exact releases_pure _
  | succ steps ih =>
      rw [grow, Reading.grow]
      split
      · exact releases_pure _
      cases r.kind? pos with
      | none => exact releases_ofAttempt _
      | some k =>
          dsimp only
          rcases hopens : (if least ≤ Operation.afterPriority then k.opens else none) with _ | b
          · rcases hafter : (if least ≤ Operation.afterPriority then k.after else none) with _ | op
            · rcases hbetween : k.between with _ | op
              · exact releases_pure _
              · dsimp only
                split
                · exact releases_pure _
                · split
                  · exact releases_ofAttempt _
                  · split
                    · exact releases_ofAttempt _
                    · refine ((releases_rightOperand hclimb pos stop op).after operand).bind ?_ ?_
                      · intro found hfound
                        rw [hfound]
                        exact ih _ _ _
                      · intro failure hfailure
                        rw [hfailure]
            · exact ih _ _ _
          · refine (releases_applied hfill operand pos stop b).bind ?_ ?_
            · intro found hfound
              simp only [hfound]
              exact ih previous found.1 found.2
            · intro failure hfailure
              simp only [hfailure]

theorem releases_closeInserted
    (hclimb : ClimbReleases count climb) (hfill : FillReleases countFill fill)
    (pos stop levels : Nat) (first : Bool) (operand : Tree) (next : Nat) :
    (closeInserted r count countFill pos stop levels first operand next).Releases depth
      (r.closeInserted climb fill depth pos stop levels first operand next) := by
  induction levels generalizing first operand next with
  | zero => exact releases_pure _
  | succ levels ih =>
      rw [closeInserted, Reading.closeInserted]
      have hextended : (if first then pure (operand, next)
          else grow r count countFill stop 0 (stop - next) none operand next).Releases depth
          (if first then .ok (operand, next)
          else r.grow climb fill depth stop 0 (stop - next) none operand next) := by
        split
        · exact releases_pure _
        · exact releases_grow hclimb hfill _ _ _ _ _ _
      refine hextended.bind ?_ ?_
      · intro found hfound
        simp only [hfound]
        split
        · exact ih _ _ _
        · split
          · exact releases_ofAttempt _
          · exact releases_ofAttempt _
      · intro failure hfailure
        simp only [hfailure]

theorem releases_insertedGroups
    (hclimb : ClimbReleases count climb) (hfill : FillReleases countFill fill) (pos stop : Nat) :
    (insertedGroups r count countFill pos stop).Releases depth
      (r.insertedGroups climb fill depth pos stop) := by
  unfold insertedGroups Reading.insertedGroups
  dsimp only
  split
  · exact releases_ofAttempt _
  · refine (hclimb depth _ stop 0).bind ?_ ?_
    · intro found hfound
      rw [hfound]
      exact releases_closeInserted hclimb hfill _ _ _ _ _ _
    · intro failure hfailure
      rw [hfailure]

theorem releases_subexpression
    (hfill : FillReleases countFill fill) (pos stop : Nat) :
    (subexpression r countFill pos stop).Releases depth
      (r.subexpression fill depth pos stop) := by
  unfold subexpression Reading.subexpression
  refine (releases_ofAttempt _).bind ?_ ?_
  · intro scope hscope
    simp only [hscope, bind, Except.bind]
    split
    · exact releases_ofAttempt _
    · refine (hfill depth scope.interior .subexpression).bind ?_ ?_
      · intro inner hinner
        rw [hinner]
        exact releases_pure _
      · intro failure hfailure
        rw [hfailure]
  · intro failure hfailure
    rw [hfailure]
    rfl

theorem releases_primary
    (hclimb : ClimbReleases count climb) (hfill : FillReleases countFill fill) (pos stop : Nat)
    (k : TokenKind) :
    (primary r count countFill pos stop k).Releases depth
      (r.primary climb fill depth pos stop k) := by
  unfold primary Reading.primary
  rcases NodeKind.ofToken? k with _ | leaf
  · rcases k.opens with _ | b
    · exact releases_ofAttempt _
    · cases b with
      | paren =>
          dsimp only
          split
          · exact releases_insertedGroups hclimb hfill pos stop
          · exact releases_subexpression hfill pos stop
      | square => exact releases_list hfill _ _ _ _ _
      | brace => exact releases_list hfill _ _ _ _ _
  · exact releases_pure _

theorem releases_prefixed
    (hclimb : ClimbReleases count climb) (hfill : FillReleases countFill fill) (pos stop : Nat) :
    (prefixed r count countFill pos stop).Releases depth
      (r.prefixed climb fill depth pos stop) := by
  unfold prefixed Reading.prefixed
  rcases r.kind? pos with _ | k
  · exact releases_ofAttempt _
  · dsimp only
    rcases k.before with _ | op
    · exact releases_primary hclimb hfill _ _ _
    · dsimp only
      split
      · exact releases_ofAttempt _
      · refine ((hclimb (depth + 1) _ _ _).nested pos).bind ?_ ?_
        · intro found hfound
          rw [hfound]
          exact releases_pure _
        · intro failure hfailure
          rw [hfailure]

theorem releases_climbWith
    (hclimb : ClimbReleases count climb) (hfill : FillReleases countFill fill) :
    ClimbReleases (climbWith r count countFill) (r.climbWith climb fill) := by
  intro depth pos stop least
  unfold climbWith Reading.climbWith
  refine (releases_prefixed hclimb hfill pos stop).bind ?_ ?_
  · intro found hfound
    rw [hfound]
    exact releases_grow hclimb hfill _ _ _ _ _ _
  · intro failure hfailure
    rw [hfailure]

theorem releases_fillWith
    (hclimb : ClimbReleases count climb) :
    FillReleases (fillWith r count) (r.fillWith climb) := by
  intro depth range production
  unfold fillWith Reading.fillWith
  apply Releases.nested
  refine (releases_ofAttempt _).bind ?_ ?_
  · intro inside hinside
    simp only [hinside, bind, Except.bind]
    split
    · exact releases_ofAttempt _
    · refine (hclimb (depth + 1) _ _ _).bind ?_ ?_
      · intro found hfound
        rw [hfound]
        dsimp only
        split
        · exact releases_ofAttempt _
        · exact releases_pure _
      · intro failure hfailure
        rw [hfailure]
  · intro failure hfailure
    rw [hfailure]
    rfl

end Parameters

theorem releases_climb_and_fill
    (r : Reading) (fuel : Nat) :
    ClimbReleases (climb r fuel) (r.climb fuel) ∧ FillReleases (fill r fuel) (r.fill fuel) := by
  induction fuel with
  | zero =>
      constructor
      · intro depth pos stop least
        rw [climb, Reading.climb]
        exact releases_ofAttempt _
      · intro depth range production
        rw [fill, Reading.fill]
        exact releases_ofAttempt _
  | succ fuel ih =>
      constructor
      · intro depth pos stop least
        rw [climb, Reading.climb]
        exact releases_climbWith ih.1 ih.2 depth pos stop least
      · intro depth range production
        rw [fill, Reading.fill]
        exact releases_fillWith ih.1 depth range production

/-- With no level open, the expression that fills a range is that of the reader, and no level is
open after it. -/
theorem releases_whole
    (r : Reading) (range : TokenRange) (production : Production) :
    (whole r range production).Releases 0 (r.whole range production) :=
  (releases_climb_and_fill r _).2 0 range production

/-- With no level open, the longest expression is that of the reader, and no level is open after
it. -/
theorem releases_longest
    (r : Reading) (range : TokenRange) : (longest r range).Releases 0 (r.longest range) := by
  unfold longest Reading.longest
  split
  · exact releases_ofAttempt _
  · exact (releases_climb_and_fill r _).1 0 _ _ _

end Counted

end ExprFront
