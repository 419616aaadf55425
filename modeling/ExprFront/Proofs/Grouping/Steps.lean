import ExprFront.Proofs.Grouping.Frames

/-!
# Steps of a grouping

One equation for each thing that grouping can do next, written over frames and
phrases: an operand is read or a frame opened before it, the operand that was
read last is closed over by what follows it, and at the end all frames are
closed. Everything holds for any function in the place of the recursive one.
-/

namespace ExprFront

open Grouping

/-! ## What closes a frame -/

namespace Frame

/-- Whether an operation between operands that follows closes the frame. -/
def closedBy (tokens : Array Token) (op : Operation) (index : Nat) (f : Frame) :
    Except ParseError Bool :=
  Grouping.closedBy tokens op index (f.application 0 0)

/-- Whether what stands after an operand closes the frame. -/
def closedByGroup (f : Frame) : Except ParseError Bool :=
  .ok (Operation.afterPriority < f.priority)

theorem closedBy_application
    (tokens : Array Token) (op : Operation) (index : Nat) (f : Frame) (start operator : Nat) :
    Grouping.closedBy tokens op index (f.application start operator) =
      f.closedBy tokens op index := by
  simp [closedBy, Grouping.closedBy]

theorem closedByGroup_application
    (f : Frame) (start operator : Nat) :
    Grouping.closedByGroup (f.application start operator) = f.closedByGroup := by
  simp [closedByGroup, Grouping.closedByGroup]

/-- An operation of the priority of a frame that groups from the right does so too. -/
theorem associativity_eq_right_of_eq
    {f : Frame} {op : Operation} (heq : f.priority = op.priority)
    (hright : f.associativity = .right) : op.associativity = .right := by
  cases f with
  | before => exact (op.associativity_eq_right_iff).mpr (Or.inr heq.symm)
  | between left inner => exact Operation.associativity_eq_right_of_priority_eq heq hright

/-- Between operands, no operation has the priority of what stands before one. -/
theorem ne_priority_before
    {op : Operation} (hbetween : op.entry.fixity = .between) :
    op.priority ≠ Operation.beforePriority := by
  by_cases hop : op = .memberAccess
  · subst hop
    decide
  · exact Nat.ne_of_lt (Operation.priority_lt_beforePriority hbetween hop)

theorem closedBy_eq_true_iff
    {tokens : Array Token} {op : Operation} {index : Nat} {f : Frame} :
    f.closedBy tokens op index = .ok true ↔ f.ClosedBy op := by
  simp only [closedBy, Grouping.closedBy, priority_application, associativity_application,
    ClosedBy]
  constructor
  · intro h
    split at h
    · cases h
    · rename_i hclash
      simp only [Except.ok.injEq, Bool.or_eq_true, Bool.and_eq_true, decide_eq_true_eq,
        beq_iff_eq] at h
      rcases h with h | ⟨heq, hleft⟩
      · exact Or.inl h
      · refine Or.inr ⟨heq, ?_, hleft⟩
        cases hassoc : f.associativity with
        | left => rfl
        | right =>
            have := associativity_eq_right_of_eq heq hassoc
            simp [hleft] at this
        | nonassoc => exact absurd ⟨heq, Or.inr hassoc⟩ hclash
  · rintro (hlt | ⟨heq, hf, hop⟩)
    · have hne : f.priority ≠ op.priority := by omega
      simp [hne, hlt]
    · simp [heq, hf, hop]

theorem closedBy_eq_false_iff
    {tokens : Array Token} {op : Operation} {index : Nat} {f : Frame}
    (hbetween : op.entry.fixity = .between) :
    f.closedBy tokens op index = .ok false ↔ f.least ≤ op.priority := by
  have hle : f.priority ≤ f.least ∧ f.least ≤ f.priority + 1 := by
    cases f with
    | before => exact ⟨Nat.le_refl _, Nat.le_succ _⟩
    | between left inner => exact ⟨inner.priority_le_rightLeast, inner.rightLeast_le_succ⟩
  simp only [closedBy, Grouping.closedBy, priority_application, associativity_application]
  by_cases heq : f.priority = op.priority
  · -- At one priority, only frames that group from the right stay open.
    have hleast : f.least ≤ op.priority ↔ op.associativity = .right := by
      cases f with
      | before => exact absurd heq.symm (ne_priority_before hbetween)
      | between left inner =>
          have hpriority : inner.priority = op.priority := heq
          by_cases hright : op.associativity = .right
          · have := Operation.associativity_eq_right_of_priority_eq hpriority.symm hright
            simp [least, Operation.rightLeast_of_right this, hpriority, hright]
          · have : inner.associativity ≠ .right := fun h =>
              hright (Operation.associativity_eq_right_of_priority_eq hpriority h)
            simp [least, Operation.rightLeast_of_ne_right this, hpriority, hright]
    rw [hleast]
    cases hassoc : op.associativity with
    | left =>
        simp only [heq, true_and, reduceCtorEq, false_or]
        split <;> simp
    | nonassoc => simp [heq]
    | right =>
        have hf : f.associativity ≠ .nonassoc := by
          cases f with
          | before => simp [associativity]
          | between left inner =>
              have := Operation.associativity_eq_right_of_priority_eq heq.symm hassoc
              simp [associativity, this]
        simp [heq, hf]
  · simp only [heq, false_and, if_false, Except.ok.injEq, Bool.or_eq_false_iff,
      decide_eq_false_iff_not, beq_eq_false_iff_ne.mpr heq, Bool.false_and, and_true]
    omega

theorem closedByGroup_eq_true_iff
    {f : Frame} : f.closedByGroup = .ok true ↔ Operation.afterPriority < f.priority := by
  simp [closedByGroup]

theorem closedByGroup_eq_false_iff
    {f : Frame} : f.closedByGroup = .ok false ↔ f.priority ≤ Operation.afterPriority := by
  simp [closedByGroup]

end Frame

/-! ## Bracket groups -/

namespace Grouping

variable {tokens : Array Token} {recurse : TokenRange → Emit}

/-- The parts of a bracket group are grouped, with the separators between them. -/
def groupInterior (tokens : Array Token) (recurse : TokenRange → Emit) : List TokenRange → Emit
  | [], out => .ok out
  | part :: parts, out => recurse part out >>= groupParts tokens recurse parts

/-- A bracket group of which the scope is known is copied with its interior grouped. -/
theorem groupBrackets_of_resolve
    {opening stop : Nat} {b : Bracket} {separated : Separated} {out : Array GroupedToken}
    (hresolve : Separated.resolve tokens ⟨opening, stop⟩ b .comma = .ok separated) :
    groupBrackets tokens recurse opening stop b out =
      take tokens separated.scope.start out >>= fun out =>
        groupInterior tokens recurse separated.parts out >>= fun out =>
          take tokens (separated.scope.stop - 1) out >>= fun out =>
            .ok (separated.scope.stop - 1, out) := by
  simp only [groupBrackets, hresolve, liftScope, bind, Except.bind]
  cases take tokens separated.scope.start out with
  | error e => rfl
  | ok out =>
      cases separated.parts with
      | nil => rfl
      | cons part parts =>
          simp only [groupInterior, bind, Except.bind]
          cases recurse part out <;> rfl

end Grouping

/-! ## Operands -/

namespace Ground

variable {ground : Ground} {recurse : TokenRange → Emit} {range : TokenRange}

/-- An operation before an operand opens a frame. -/
theorem operand_before
    {fs : List Frame} {operandStart steps : Nat} {k : TokenKind} {op : Operation}
    (hstop : ground.reached fs < range.stop)
    (hkind : kindAt ground.tokens (ground.reached fs) = some k) (hbefore : k.before = some op) :
    operand ground.tokens recurse range (steps + 1) (ground.waiting fs operandStart) =
      operand ground.tokens recurse range steps
        (ground.waiting (.before op :: fs) operandStart) := by
  obtain ⟨t, ht, rfl⟩ := kindAt_eq_some_iff.mp hkind
  have hhead : ¬ range.stop ≤ (ground.waiting fs operandStart).head := by
    simp only [waiting]
    omega
  have htake : take ground.tokens (ground.reached fs) (ground.written fs).toArray = _ :=
    take_of_lt (lt_size_of_kindAt hkind) _
  rw [operand, if_neg hhead]
  simp only [waiting, ht, hbefore, Option.isSome_some, if_true, htake, bind, Except.bind,
    stack, written, Frame.entries, Frame.application, List.size_toArray, reached_cons,
    Frame.width, Nat.add_sub_cancel]

/-- A token that is an operand by itself is copied. -/
theorem operand_leaf
    {fs : List Frame} {operandStart steps : Nat} {k : TokenKind} {kind : NodeKind}
    (hstop : ground.reached fs < range.stop)
    (hkind : kindAt ground.tokens (ground.reached fs) = some k)
    (hleaf : NodeKind.ofToken? k = some kind) :
    operand ground.tokens recurse range (steps + 1) (ground.waiting fs operandStart) =
      .ok (ground.holding fs (.leaf kind)) := by
  obtain ⟨t, ht, rfl⟩ := kindAt_eq_some_iff.mp hkind
  have hoperand := NodeKind.isOperand_of_ofToken? hleaf
  obtain ⟨-, hopens, -⟩ := TokenKind.of_isOperand hoperand
  have hbefore := TokenKind.before_eq_none_of_isOperand hoperand
  have hhead : ¬ range.stop ≤ (ground.waiting fs operandStart).head := by
    simp only [waiting]
    omega
  have htake : take ground.tokens (ground.reached fs) (ground.written fs).toArray = _ :=
    take_of_lt (lt_size_of_kindAt hkind) _
  rw [operand, if_neg hhead]
  simp [waiting, ht, hbefore, hopens, hoperand, htake, bind, Except.bind, pure, Except.pure,
    holding, Phrase.grouped, Phrase.width]

/-- A bracket group in the place of an operand is copied, unless it is an empty pair of
parentheses. -/
theorem operand_group
    {fs : List Frame} {operandStart steps : Nat} {b : Bracket}
    (hstop : ground.reached fs < range.stop)
    (hkind : kindAt ground.tokens (ground.reached fs) = some (.punctuation b.opening)) :
    operand ground.tokens recurse range (steps + 1) (ground.waiting fs operandStart) = (do
      requireFilled ground.tokens (ground.reached fs) range.stop b
      let (closing, out) ← groupBrackets ground.tokens recurse (ground.reached fs) range.stop b
        (ground.written fs).toArray
      return ⟨out, ground.stack fs, closing + 1, (ground.written fs).length⟩) := by
  obtain ⟨t, ht, hk⟩ := kindAt_eq_some_iff.mp hkind
  have hopens : t.kind.opens = some b := TokenKind.opens_eq_some_iff.mpr hk
  have hbefore : t.kind.before = none := by rw [hk]; rfl
  have hhead : ¬ range.stop ≤ (ground.waiting fs operandStart).head := by
    simp only [waiting]
    omega
  rw [operand, if_neg hhead]
  simp [waiting, ht, hbefore, hopens]

/-! ## Operators -/

/-- At the end of the range all frames are closed. -/
theorem finish_holding
    (fs : List Frame) (p : Phrase) (hsize : ground.reached fs ≤ ground.tokens.size) :
    (ground.holding fs p).finish ground.tokens =
      .ok (ground.base ++ (fs.foldl (fun operand f => f.close operand) p).grouped ground.tokens
        ground.first).toArray := by
  have hsettled : settled (fun _ => .ok true) (fs ++ []) p = .ok ([], _) :=
    settled_append (fun _ _ => rfl) (by simp)
  rw [List.append_nil] at hsettled
  rw [Progress.finish, ground.settle_holding (fun _ _ _ => rfl) fs p hsize, hsettled]
  rfl

theorem operators_of_le
    {steps : Nat} {progress : Progress} (hstop : range.stop ≤ progress.head) :
    operators ground.tokens recurse range steps progress = progress.finish ground.tokens := by
  cases steps with
  | zero => rfl
  | succ steps => rw [operators, if_pos hstop]

/-- An operator after an operand closes over it. -/
theorem operators_after
    {fs : List Frame} {p : Phrase} {steps : Nat} {k : TokenKind} {op : Operation}
    (hstop : ground.reached fs + p.width < range.stop)
    (hkind : kindAt ground.tokens (ground.reached fs + p.width) = some k)
    (hafter : k.after = some op) :
    operators ground.tokens recurse range (steps + 1) (ground.holding fs p) =
      match settled Frame.closedByGroup fs p with
      | .error e => .error e
      | .ok (rest, q) =>
          operators ground.tokens recurse range steps (ground.holding rest (.after q op)) := by
  obtain ⟨t, ht, rfl⟩ := kindAt_eq_some_iff.mp hkind
  obtain ⟨o, hk, ho⟩ := TokenKind.exists_operator_of_after hafter
  have hsize := lt_size_of_kindAt hkind
  have hhead : ¬ range.stop ≤ (ground.holding fs p).head := by
    simp only [holding]
    omega
  have hopens := TokenKind.opens_eq_none_of_after hafter
  have hoperator : t.kind.operator? = some o := by rw [hk]; rfl
  have htoken : ground.tokens[(ground.holding fs p).head]? = some t := ht
  rw [operators, if_neg hhead]
  simp only [htoken, hopens, hoperator, ho,
    ground.settle_holding Frame.closedByGroup_application fs p (by omega)]
  cases hsettled : settled Frame.closedByGroup fs p with
  | error e => rfl
  | ok result =>
      obtain ⟨rest, q⟩ := result
      have hreached := ground.reached_of_settled hsettled
      have htake : take ground.tokens (ground.holding rest q).head (ground.holding rest q).out =
          .ok (ground.written rest ++ (q.grouped ground.tokens (ground.reached rest) ++
            copy ground.tokens (ground.reached rest + q.width))).toArray := by
        rw [← List.append_assoc]
        exact take_of_lt (by rwa [head_holding, hreached]) _
      have hanchor : ground.reached rest + q.width < ground.tokens.size := by omega
      have hback : q.grouped ground.tokens (ground.reached rest) ++
          copy ground.tokens (ground.reached rest + q.width) ≠ [] := by
        simp [copy_ne_nil hanchor]
      have hparens := parenthesize_append hanchor (ground.written rest) hback
      simp only [bind, Except.bind, htake]
      simp only [holding, hparens, Phrase.grouped, Phrase.width, Nat.add_assoc]

/-- An operation between operands opens a frame with the operand before it. -/
theorem operators_between
    {fs : List Frame} {p : Phrase} {steps : Nat} {k : TokenKind} {op : Operation}
    (hstop : ground.reached fs + p.width < range.stop)
    (hkind : kindAt ground.tokens (ground.reached fs + p.width) = some k)
    (hbetween : k.between = some op) :
    operators ground.tokens recurse range (steps + 1) (ground.holding fs p) =
      match settled (Frame.closedBy ground.tokens op (ground.reached fs + p.width)) fs p with
      | .error e => .error e
      | .ok (rest, q) => (do
          let progress ← operand ground.tokens recurse range range.length
            (ground.waiting (.between q op :: rest) (ground.written rest).length)
          operators ground.tokens recurse range steps progress) := by
  obtain ⟨t, ht, rfl⟩ := kindAt_eq_some_iff.mp hkind
  obtain ⟨o, hk, ho⟩ := TokenKind.exists_operator_of_between hbetween
  have hsize := lt_size_of_kindAt hkind
  have hhead : ¬ range.stop ≤ (ground.holding fs p).head := by
    simp only [holding]
    omega
  have hopens := TokenKind.opens_eq_none_of_between hbetween
  have hafter := TokenKind.after_eq_none_of_between hbetween
  have hoperator : t.kind.operator? = some o := by rw [hk]; rfl
  have hoAfter : o.after = none := by
    rw [hk] at hafter
    exact hafter
  have htoken : ground.tokens[(ground.holding fs p).head]? = some t := ht
  rw [operators, if_neg hhead]
  simp only [htoken, hopens, hoperator, ho, hoAfter,
    ground.settle_holding (Frame.closedBy_application ground.tokens op
      (ground.holding fs p).head) fs p (by omega)]
  rw [head_holding]
  cases hsettled : settled (Frame.closedBy ground.tokens op (ground.reached fs + p.width)) fs p with
  | error e => rfl
  | ok result =>
      obtain ⟨rest, q⟩ := result
      have hreached := ground.reached_of_settled hsettled
      have htake : take ground.tokens (ground.holding rest q).head (ground.holding rest q).out =
          .ok (ground.written rest ++ q.grouped ground.tokens (ground.reached rest) ++
            copy ground.tokens (ground.reached rest + q.width)).toArray :=
        take_of_lt (by rwa [head_holding, hreached]) _
      simp only [bind, Except.bind, htake]
      simp only [holding, waiting, stack, written, Frame.entries, Frame.application, reached_cons,
        Frame.width, List.append_assoc, ← Nat.add_assoc, Nat.add_sub_cancel]

/-- A bracket group after an operand closes over it. -/
theorem operators_group
    {fs : List Frame} {p : Phrase} {steps : Nat} {b : Bracket}
    (hstop : ground.reached fs + p.width < range.stop)
    (hkind : kindAt ground.tokens (ground.reached fs + p.width) =
      some (.punctuation b.opening)) :
    operators ground.tokens recurse range (steps + 1) (ground.holding fs p) =
      match settled Frame.closedByGroup fs p with
      | .error e => .error e
      | .ok (rest, q) => (do
          let (closing, out) ← groupBrackets ground.tokens recurse
            (ground.reached fs + p.width) range.stop b (ground.holding rest q).out
          let out ← parenthesize ground.tokens (ground.written rest).length closing out
          operators ground.tokens recurse range steps
            { ground.holding rest q with out, head := closing + 1 }) := by
  obtain ⟨t, ht, hk⟩ := kindAt_eq_some_iff.mp hkind
  have hsize := lt_size_of_kindAt hkind
  have hhead : ¬ range.stop ≤ (ground.holding fs p).head := by
    simp only [holding]
    omega
  have hopens : t.kind.opens = some b := TokenKind.opens_eq_some_iff.mpr hk
  have htoken : ground.tokens[(ground.holding fs p).head]? = some t := ht
  rw [operators, if_neg hhead]
  simp only [htoken, hopens,
    ground.settle_holding Frame.closedByGroup_application fs p (by omega)]
  cases hsettled : settled Frame.closedByGroup fs p with
  | error e => rfl
  | ok result =>
      obtain ⟨rest, q⟩ := result
      have hreached : (ground.holding rest q).head = ground.reached fs + p.width :=
        ground.reached_of_settled hsettled
      simp only [bind, Except.bind, hreached]
      rfl

/-- An operand with the bracket group after it is what is held next. -/
theorem parenthesize_applied
    {rest : List Frame} {q : Phrase} {b : Bracket} {parts : List Phrase}
    (hsize : ground.reached rest + q.width + (Phrase.group b parts).width ≤
      ground.tokens.size) :
    parenthesize ground.tokens (ground.written rest).length
        (ground.reached rest + q.width + (Phrase.group b parts).width - 1)
        (ground.written rest ++ q.grouped ground.tokens (ground.reached rest) ++
          (Phrase.group b parts).grouped ground.tokens (ground.reached rest + q.width)).toArray =
      .ok (ground.holding rest (.applied q b parts)).out := by
  have hpos := (Phrase.group b parts).width_pos
  have hback : q.grouped ground.tokens (ground.reached rest) ++
      (Phrase.group b parts).grouped ground.tokens (ground.reached rest + q.width) ≠ [] := by
    have : ground.reached rest + q.width < ground.tokens.size := by omega
    simp [Phrase.grouped, copy_ne_nil this]
  have hanchor : ground.reached rest + q.width + (Phrase.group b parts).width - 1 <
      ground.tokens.size := by omega
  rw [List.append_assoc, parenthesize_append hanchor (ground.written rest) hback,
    ← Phrase.grouped_applied]
  rfl

/-- With the bracket group after it grouped, an operand is held in its turn. -/
theorem operators_applied
    {fs rest : List Frame} {p q : Phrase} {steps : Nat} {b : Bracket} {parts : List Phrase}
    (hstop : ground.reached fs + p.width < range.stop)
    (hgroup : (Phrase.group b parts).Spells ground.tokens (ground.reached fs + p.width))
    (hsettled : settled Frame.closedByGroup fs p = .ok (rest, q))
    (hbrackets : groupBrackets ground.tokens recurse (ground.reached fs + p.width) range.stop b
        (ground.holding rest q).out =
      .ok (ground.reached fs + p.width + (Phrase.group b parts).width - 1,
        (ground.written rest ++ q.grouped ground.tokens (ground.reached rest) ++
          (Phrase.group b parts).grouped ground.tokens
            (ground.reached fs + p.width)).toArray)) :
    operators ground.tokens recurse range (steps + 1) (ground.holding fs p) =
      operators ground.tokens recurse range steps (ground.holding rest (.applied q b parts)) := by
  have hreached := ground.reached_of_settled hsettled
  have hsize := hgroup.le_size
  have hpos := (Phrase.group b parts).width_pos
  rw [operators_group hstop hgroup.1, hsettled]
  rw [← hreached] at hbrackets hsize ⊢
  simp only [bind, Except.bind, hbrackets, parenthesize_applied hsize]
  congr 1
  simp only [holding, Phrase.width_applied, Progress.mk.injEq, true_and, and_true]
  omega

end Ground

end ExprFront
