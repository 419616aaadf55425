import ExprFront.Proofs.Metered
import ExprFront.Proofs.Reading.Parallel

/-!
# Reading with a meter at every call

The functions that read an expression call each other in turn: an expression in
a range, an operand with what follows it, what follows an operand, an operand
with the operators before it, a single operand, inserted groups, a list in
brackets, and the group that is applied after an operand. Here each of them
takes a meter that is one less at every call, also where the call goes no level
deeper. The loops inside them take none.

A call of `climb` or `fill` leads to the next one over at most six of the others.
So with seven for each level of the recursion through these two, the metered
functions have the outcome of those that count only these calls.
-/

namespace ExprFront

/-- Reads what follows an operand: depth, end of the tokens, least priority, the operand and the
index after it. -/
abbrev Grower := (depth stop least : Nat) → (operand : Tree) → (pos : Nat) → Attempt (Tree × Nat)

/-- Reads an operand without operators before it, which starts with a token of the given kind. -/
abbrev Starter := (depth pos stop : Nat) → TokenKind → Attempt (Tree × Nat)

/-- Reads an operand from an index on. -/
abbrev Opener := (depth pos stop : Nat) → Attempt (Tree × Nat)

/-- Reads a list in brackets from an index on. -/
abbrev Lister :=
  (depth pos stop : Nat) → Bracket → NodeKind → Production → Attempt (Tree × Nat)

/-- Applies an operand to the bracket group at an index. -/
abbrev Applier :=
  (depth : Nat) → (callee : Tree) → (pos stop : Nat) → Bracket → Attempt (Tree × Nat)

namespace Reading

/-! ## One call of each function -/

/-- An operand with the bracket group after it. -/
def appliedBy (list : Lister) : Applier := fun depth callee pos stop b =>
  let (op, kind, production) := groupRole b
  match Attempt.after callee (list depth pos stop b kind production) with
  | .ok (arguments, next) =>
      .ok (.node (.operation op) ⟨callee.range.start, next⟩ [callee, arguments], next)
  | .error failure => .error failure

/-- An operand is extended by what follows it, token by token. -/
def growBy (r : Reading) (climb : Climber) (apply : Applier) (depth stop least : Nat) :
    (steps : Nat) → (previous : Option Operation) → (operand : Tree) → (pos : Nat) →
      Attempt (Tree × Nat)
  | 0, _, operand, pos => .ok (operand, pos)
  | steps + 1, previous, operand, pos =>
      if stop ≤ pos then .ok (operand, pos)
      else match r.kind? pos with
        | none => .failAfter operand (.fault (.missingToken pos))
        | some k =>
            let takesAfter := least ≤ Operation.afterPriority
            match (if takesAfter then k.opens else none), (if takesAfter then k.after else none),
                k.between with
            | some b, _, _ =>
                match apply depth operand pos stop b with
                | .ok (operand, next) =>
                    growBy r climb apply depth stop least steps previous operand next
                | .error failure => .error failure
            | none, some op, _ =>
                let operand :=
                  .node (.operation op) ⟨operand.range.start, pos + 1⟩ [operand]
                growBy r climb apply depth stop least steps previous operand (pos + 1)
            | none, none, none => .ok (operand, pos)
            | none, none, some op =>
                if op.priority < least then .ok (operand, pos)
                else if clashes previous op then
                  .failAfter operand (r.misplaced .nonAssociative .expression pos)
                else if stop ≤ pos + 1 then
                  .failAfter operand (r.misplaced .missingOperand .expression pos)
                else
                  match Attempt.after operand (r.rightOperand climb depth pos stop op) with
                  | .ok (right, next) =>
                      let range := ⟨operand.range.start, right.range.stop⟩
                      growBy r climb apply depth stop least steps (some op)
                        (.node (.operation op) range [operand, right]) next
                  | .error failure => .error failure

/-- What follows an operand, with as many steps as tokens are left. -/
def grower (r : Reading) (climb : Climber) (apply : Applier) : Grower :=
  fun depth stop least operand pos =>
    r.growBy climb apply depth stop least (stop - pos) none operand pos

/-- Inserted groups are closed one after the other. -/
def closeInsertedBy (r : Reading) (grow : Grower) (depth pos stop : Nat) :
    (levels : Nat) → (first : Bool) → (operand : Tree) → (next : Nat) → Attempt (Tree × Nat)
  | 0, _, operand, next => .ok (operand, next)
  | levels + 1, first, operand, next =>
      let extended :=
        if first then .ok (operand, next) else grow depth stop 0 operand next
      match extended with
      | .error failure => .error failure
      | .ok (operand, next) =>
          if r.isInserted next .rparen then
            closeInsertedBy r grow depth pos stop levels false operand (next + 1)
          else if next < stop then .failAfter operand (r.surplus .grouping next)
          else .failAfter operand (r.misplaced .invalidToken .grouping pos)

/-- A run of inserted groups, which are read from the inside out. -/
def insertedBy (r : Reading) (climb : Climber) (grow : Grower) : Opener := fun depth pos stop =>
  let levels := r.insertedRun stop (stop - pos) pos
  if stop ≤ pos + levels then .fail (r.misplaced .emptyOperand .grouping pos)
  else
    match climb depth (pos + levels) stop 0 with
    | .ok (operand, next) => r.closeInsertedBy grow depth pos stop levels true operand next
    | .error failure => .error failure

/-- A single token or a bracket group in the place of an operand. -/
def primaryBy (r : Reading) (inserted : Opener) (fill : Filler) (list : Lister) : Starter :=
  fun depth pos stop k =>
    match NodeKind.ofToken? k with
    | some leaf => .ok (.leaf leaf ⟨pos, pos + 1⟩, pos + 1)
    | none =>
        match k.opens with
        | some .paren =>
            if r.isInserted pos .lparen then inserted depth pos stop
            else r.subexpression fill depth pos stop
        | some .square => list depth pos stop .square .listLiteral .listLiteral
        | some .brace => list depth pos stop .brace .initializerList .initializerList
        | none => .fail (r.noOperand k pos)

/-- An operand with the operators before it. -/
def prefixedBy (r : Reading) (climb : Climber) (primary : Starter) : Opener :=
  fun depth pos stop =>
    match r.kind? pos with
    | none => .fail (.fault (.missingToken pos))
    | some k =>
        match k.before with
        | none => primary depth pos stop k
        | some op =>
            if stop ≤ pos + 1 then .fail (r.misplaced .missingOperand .primary pos)
            else
              match r.deeper depth pos
                  (climb (depth + 1) (pos + 1) stop Operation.beforePriority) with
              | .ok (operand, next) =>
                  .ok (.node (.operation op) ⟨pos, operand.range.stop⟩ [operand], next)
              | .error failure => .error failure

/-- An operand and what follows it. -/
def climbBy (opened : Opener) (grow : Grower) : Climber := fun depth pos stop least =>
  match opened depth pos stop with
  | .ok (operand, next) => grow depth stop least operand next
  | .error failure => .error failure

/-! ## The metered functions -/

namespace Metered

mutual

/-- The expression that fills a range. -/
def fill (r : Reading) : (fuel : Nat) → Filler
  | 0 => fun _ _ _ => .fail (.fault .exhausted)
  | fuel + 1 => r.fillWith (climb r fuel)

/-- The expression from an index on. -/
def climb (r : Reading) : (fuel : Nat) → Climber
  | 0 => fun _ _ _ _ => .fail (.fault .exhausted)
  | fuel + 1 => climbBy (opened r fuel) (grow r fuel)

/-- What follows an operand. -/
def grow (r : Reading) : (fuel : Nat) → Grower
  | 0 => fun _ _ _ _ _ => .fail (.fault .exhausted)
  | fuel + 1 => r.grower (climb r fuel) (applied r fuel)

/-- An operand with the operators before it. -/
def opened (r : Reading) : (fuel : Nat) → Opener
  | 0 => fun _ _ _ => .fail (.fault .exhausted)
  | fuel + 1 => r.prefixedBy (climb r fuel) (primary r fuel)

/-- A single token or a bracket group in the place of an operand. -/
def primary (r : Reading) : (fuel : Nat) → Starter
  | 0 => fun _ _ _ _ => .fail (.fault .exhausted)
  | fuel + 1 => r.primaryBy (inserted r fuel) (fill r fuel) (list r fuel)

/-- A run of inserted groups. -/
def inserted (r : Reading) : (fuel : Nat) → Opener
  | 0 => fun _ _ _ => .fail (.fault .exhausted)
  | fuel + 1 => r.insertedBy (climb r fuel) (grow r fuel)

/-- A list in brackets. -/
def list (r : Reading) : (fuel : Nat) → Lister
  | 0 => fun _ _ _ _ _ _ => .fail (.fault .exhausted)
  | fuel + 1 => r.list (fill r fuel)

/-- An operand with the bracket group after it. -/
def applied (r : Reading) : (fuel : Nat) → Applier
  | 0 => fun _ _ _ _ _ => .fail (.fault .exhausted)
  | fuel + 1 => appliedBy (list r fuel)

end

end Metered

/-! ## The functions over `climb` and `fill` -/

theorem applied_eq_appliedBy
    (r : Reading) (fill : Filler) : r.applied fill = appliedBy (r.list fill) := rfl

theorem grow_eq_growBy
    (r : Reading) (climb : Climber) (fill : Filler) (depth stop least steps : Nat)
    (previous : Option Operation) (operand : Tree) (pos : Nat) :
    r.grow climb fill depth stop least steps previous operand pos =
      r.growBy climb (r.applied fill) depth stop least steps previous operand pos := by
  induction steps generalizing previous operand pos with
  | zero => rfl
  | succ steps ih =>
      simp only [grow, ih]
      rfl

theorem closeInserted_eq_closeInsertedBy
    (r : Reading) (climb : Climber) (fill : Filler) (depth pos stop levels : Nat) (first : Bool)
    (operand : Tree) (next : Nat) :
    r.closeInserted climb fill depth pos stop levels first operand next =
      r.closeInsertedBy (r.grower climb (r.applied fill)) depth pos stop levels first operand
        next := by
  induction levels generalizing first operand next with
  | zero => rfl
  | succ levels ih =>
      simp only [closeInserted, grow_eq_growBy, ih]
      rfl

theorem insertedGroups_eq_insertedBy
    (r : Reading) (climb : Climber) (fill : Filler) :
    r.insertedGroups climb fill = r.insertedBy climb (r.grower climb (r.applied fill)) := by
  funext depth pos stop
  simp only [insertedGroups, closeInserted_eq_closeInsertedBy]
  rfl

theorem primary_eq_primaryBy
    (r : Reading) (climb : Climber) (fill : Filler) :
    r.primary climb fill = r.primaryBy (r.insertedGroups climb fill) fill (r.list fill) := rfl

theorem prefixed_eq_prefixedBy
    (r : Reading) (climb : Climber) (fill : Filler) :
    r.prefixed climb fill = r.prefixedBy climb (r.primary climb fill) := rfl

theorem climbWith_eq_climbBy
    (r : Reading) (climb : Climber) (fill : Filler) :
    r.climbWith climb fill =
      climbBy (r.prefixed climb fill) (r.grower climb (r.applied fill)) := by
  funext depth pos stop least
  simp only [climbWith, grow_eq_growBy]
  rfl

/-! ## The same outcome, unless the meter runs out -/

/-- The second function reads what the first one reads, unless the meter of that one runs out. -/
def SameClimbs (climb climb' : Climber) : Prop :=
  ∀ depth pos stop least,
    SameUnless Failure.Spent (climb depth pos stop least) (climb' depth pos stop least)

@[inherit_doc SameClimbs]
def SameFills (fill fill' : Filler) : Prop :=
  ∀ depth range production,
    SameUnless Failure.Spent (fill depth range production) (fill' depth range production)

@[inherit_doc SameClimbs]
def SameGrowths (grow grow' : Grower) : Prop :=
  ∀ depth stop least operand pos, SameUnless Failure.Spent
    (grow depth stop least operand pos) (grow' depth stop least operand pos)

@[inherit_doc SameClimbs]
def SameOpenings (opened opened' : Opener) : Prop :=
  ∀ depth pos stop, SameUnless Failure.Spent (opened depth pos stop) (opened' depth pos stop)

@[inherit_doc SameClimbs]
def SameStarts (primary primary' : Starter) : Prop :=
  ∀ depth pos stop k,
    SameUnless Failure.Spent (primary depth pos stop k) (primary' depth pos stop k)

@[inherit_doc SameClimbs]
def SameLists (list list' : Lister) : Prop :=
  ∀ depth pos stop b kind production, SameUnless Failure.Spent
    (list depth pos stop b kind production) (list' depth pos stop b kind production)

@[inherit_doc SameClimbs]
def SameApplications (apply apply' : Applier) : Prop :=
  ∀ depth callee pos stop b,
    SameUnless Failure.Spent (apply depth callee pos stop b) (apply' depth callee pos stop b)

section SameOutcome

variable {r : Reading} {climb climb' : Climber} {fill fill' : Filler} {grow grow' : Grower}
variable {apply apply' : Applier} {list list' : Lister} {opened opened' : Opener}
variable {primary primary' : Starter}

theorem sameUnless_deeper
    {α : Type} {inner inner' : Attempt α} (h : SameUnless Failure.Spent inner inner')
    (depth index : Nat) :
    SameUnless Failure.Spent (r.deeper depth index inner) (r.deeper depth index inner') := by
  unfold deeper
  split
  · exact .refl _
  · exact h

theorem sameUnless_items
    {fillPart fillPart' : TokenRange → Attempt Tree}
    (hfill : ∀ part, SameUnless Failure.Spent (fillPart part) (fillPart' part))
    (kind : NodeKind) (range : TokenRange) (done : List Tree) (parts : List TokenRange) :
    SameUnless Failure.Spent (items fillPart kind range done parts)
      (items fillPart' kind range done parts) := by
  induction parts generalizing done with
  | nil => exact .refl _
  | cons part parts ih =>
      rw [items_cons, items_cons]
      exact (Attempt.sameUnless_after (hfill part) _).bind fun item => ih (done ++ [item])

theorem sameLists_list
    (hfill : SameFills fill fill') : SameLists (r.list fill) (r.list fill') := by
  intro depth pos stop b kind production
  unfold Reading.list
  refine (SameUnless.refl _).bind fun separated => ?_
  exact (sameUnless_items (fun part => hfill depth part production) kind _ _ _).bind
    fun tree => .refl _

theorem sameApplications_appliedBy
    (hlist : SameLists list list') : SameApplications (appliedBy list) (appliedBy list') := by
  intro depth callee pos stop b
  exact Attempt.sameUnless_found (Attempt.sameUnless_after (hlist depth pos stop b _ _) callee)
    fun arguments next => .refl _

theorem sameUnless_rightOperand
    (hclimb : SameClimbs climb climb') (depth pos stop : Nat) (op : Operation) :
    SameUnless Failure.Spent (r.rightOperand climb depth pos stop op)
      (r.rightOperand climb' depth pos stop op) := by
  unfold rightOperand
  split
  · exact sameUnless_deeper (hclimb _ _ _ _) _ _
  · exact hclimb _ _ _ _

theorem sameGrowths_grower
    (hclimb : SameClimbs climb climb') (happly : SameApplications apply apply') :
    SameGrowths (r.grower climb apply) (r.grower climb' apply') := by
  intro depth stop least operand pos
  unfold grower
  generalize stop - pos = steps, none = previous
  induction steps generalizing previous operand pos with
  | zero => exact .refl _
  | succ steps ih =>
      rw [growBy, growBy]
      split
      · exact .refl _
      split
      · exact .refl _
      dsimp only
      split
      · exact Attempt.sameUnless_found (happly _ _ _ _ _) fun grown next => ih grown next previous
      · exact ih _ _ _
      · exact .refl _
      · split
        · exact .refl _
        split
        · exact .refl _
        split
        · exact .refl _
        · have hright := sameUnless_rightOperand (r := r) hclimb depth pos stop
          exact Attempt.sameUnless_found (Attempt.sameUnless_after (hright _) operand)
            fun right next => ih _ _ _

theorem sameUnless_closeInsertedBy
    (hgrow : SameGrowths grow grow') (depth pos stop levels : Nat) (first : Bool)
    (operand : Tree) (next : Nat) :
    SameUnless Failure.Spent (r.closeInsertedBy grow depth pos stop levels first operand next)
      (r.closeInsertedBy grow' depth pos stop levels first operand next) := by
  induction levels generalizing first operand next with
  | zero => exact .refl _
  | succ levels ih =>
      have hextended : SameUnless Failure.Spent
          (if first then .ok (operand, next) else grow depth stop 0 operand next)
          (if first then .ok (operand, next) else grow' depth stop 0 operand next) := by
        split
        · exact .refl _
        · exact hgrow _ _ _ _ _
      simp only [closeInsertedBy]
      generalize (if first then .ok (operand, next) else grow depth stop 0 operand next) = extended
        at hextended ⊢
      generalize (if first then .ok (operand, next) else grow' depth stop 0 operand next) = other
        at hextended ⊢
      cases hextended with
      | error h => exact .error h
      | early h => exact .early h _
      | ok h =>
          subst h
          dsimp only
          split
          · exact ih _ _ _
          · exact .refl _

theorem sameOpenings_insertedBy
    (hclimb : SameClimbs climb climb') (hgrow : SameGrowths grow grow') :
    SameOpenings (r.insertedBy climb grow) (r.insertedBy climb' grow') := by
  intro depth pos stop
  unfold insertedBy
  dsimp only
  split
  · exact .refl _
  · exact Attempt.sameUnless_found (hclimb _ _ _ _)
      fun operand next => sameUnless_closeInsertedBy hgrow _ _ _ _ _ _ _

theorem sameOpenings_subexpression
    (hfill : SameFills fill fill') :
    SameOpenings (r.subexpression fill) (r.subexpression fill') := by
  intro depth pos stop
  unfold subexpression
  refine (SameUnless.refl _).bind fun scope => ?_
  split
  · exact .refl _
  · exact (hfill _ _ _).bind fun inner => .refl _

theorem sameStarts_primaryBy
    (hinserted : SameOpenings opened opened') (hfill : SameFills fill fill')
    (hlist : SameLists list list') :
    SameStarts (r.primaryBy opened fill list) (r.primaryBy opened' fill' list') := by
  intro depth pos stop k
  unfold primaryBy
  split
  · exact .refl _
  split
  · split
    · exact hinserted _ _ _
    · exact sameOpenings_subexpression hfill _ _ _
  · exact hlist _ _ _ _ _ _
  · exact hlist _ _ _ _ _ _
  · exact .refl _

theorem sameOpenings_prefixedBy
    (hclimb : SameClimbs climb climb') (hprimary : SameStarts primary primary') :
    SameOpenings (r.prefixedBy climb primary) (r.prefixedBy climb' primary') := by
  intro depth pos stop
  unfold prefixedBy
  split
  · exact .refl _
  split
  · exact hprimary _ _ _ _
  split
  · exact .refl _
  · exact Attempt.sameUnless_found (sameUnless_deeper (hclimb _ _ _ _) _ _)
      fun operand next => .refl _

theorem sameClimbs_climbBy
    (hopened : SameOpenings opened opened') (hgrow : SameGrowths grow grow') :
    SameClimbs (climbBy opened grow) (climbBy opened' grow') := by
  intro depth pos stop least
  exact Attempt.sameUnless_found (hopened _ _ _) fun operand next => hgrow _ _ _ _ _

theorem sameFills_fillWith
    (hclimb : SameClimbs climb climb') :
    SameFills (r.fillWith climb) (r.fillWith climb') := by
  intro depth range production
  unfold fillWith
  refine sameUnless_deeper ((SameUnless.refl _).bind fun range => ?_) _ _
  split
  · exact .refl _
  · exact (hclimb _ _ _ _).bind fun found => .refl _

end SameOutcome

/-! ## The metered functions against those over `climb` and `fill` -/

namespace Metered

variable {r : Reading} {climb : Climber} {fill : Filler} {least : Nat}

/-- What follows an operand takes three more calls down to a list part. -/
theorem sameGrowths_grow
    (hclimb : ∀ fuel, least ≤ fuel → SameClimbs climb (Metered.climb r fuel))
    (hfill : ∀ fuel, least ≤ fuel → SameFills fill (Metered.fill r fuel))
    {fuel : Nat} (hfuel : least ≤ fuel) :
    SameGrowths (r.grower climb (r.applied fill)) (Metered.grow r (fuel + 3)) := by
  have hlist : SameLists (r.list fill) (Metered.list r (fuel + 1)) :=
    sameLists_list (hfill fuel hfuel)
  have happly : SameApplications (r.applied fill) (Metered.applied r (fuel + 2)) := by
    rw [applied_eq_appliedBy]
    exact sameApplications_appliedBy hlist
  exact sameGrowths_grower (hclimb (fuel + 2) (by omega)) happly

/-- An operand takes at most six calls down to the next one of `climb` or `fill`. -/
theorem sameOpenings_opened
    (hclimb : ∀ fuel, least ≤ fuel → SameClimbs climb (Metered.climb r fuel))
    (hfill : ∀ fuel, least ≤ fuel → SameFills fill (Metered.fill r fuel))
    {fuel : Nat} (hfuel : least ≤ fuel) :
    SameOpenings (r.prefixed climb fill) (Metered.opened r (fuel + 6)) := by
  have hinserted : SameOpenings (r.insertedGroups climb fill) (Metered.inserted r (fuel + 4)) := by
    rw [insertedGroups_eq_insertedBy]
    exact sameOpenings_insertedBy (hclimb (fuel + 3) (by omega))
      (sameGrowths_grow hclimb hfill hfuel)
  have hlist : SameLists (r.list fill) (Metered.list r (fuel + 4)) :=
    sameLists_list (hfill (fuel + 3) (by omega))
  have hprimary : SameStarts (r.primary climb fill) (Metered.primary r (fuel + 5)) := by
    rw [primary_eq_primaryBy]
    exact sameStarts_primaryBy hinserted (hfill (fuel + 4) (by omega)) hlist
  rw [prefixed_eq_prefixedBy]
  exact sameOpenings_prefixedBy (hclimb (fuel + 5) (by omega)) hprimary

/-- With seven calls for each level of the recursion through `climb` and `fill`, the metered
functions have the outcome of these. -/
theorem sameClimbs_and_sameFills
    (r : Reading) {levels fuel : Nat} (hfuel : 7 * levels ≤ fuel) :
    SameClimbs (r.climb levels) (Metered.climb r fuel) ∧
      SameFills (r.fill levels) (Metered.fill r fuel) := by
  induction levels generalizing fuel with
  | zero =>
      exact ⟨fun _ _ _ _ => Attempt.sameUnless_exhausted _,
        fun _ _ _ => Attempt.sameUnless_exhausted _⟩
  | succ levels ih =>
      obtain ⟨rest, rfl⟩ : ∃ rest, fuel = rest + 7 := ⟨fuel - 7, by omega⟩
      have hrest : 7 * levels ≤ rest := by omega
      have hclimb := fun fuel (hle : 7 * levels ≤ fuel) => (ih hle).1
      have hfill := fun fuel (hle : 7 * levels ≤ fuel) => (ih hle).2
      constructor
      · have hclimbs : SameClimbs (r.climbWith (r.climb levels) (r.fill levels))
            (Metered.climb r (rest + 7)) := by
          rw [climbWith_eq_climbBy]
          exact sameClimbs_climbBy (sameOpenings_opened hclimb hfill hrest)
            (sameGrowths_grow hclimb hfill (by omega : 7 * levels ≤ rest + 3))
        exact fun depth pos stop least => hclimbs depth pos stop least
      · have hfills : SameFills (r.fillWith (r.climb levels)) (Metered.fill r (rest + 7)) :=
          sameFills_fillWith (hclimb (rest + 6) (by omega))
        exact fun depth range production => hfills depth range production

end Metered

end Reading

end ExprFront
