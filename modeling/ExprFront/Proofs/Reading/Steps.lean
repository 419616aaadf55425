import ExprFront.Proofs.Phrase.Brackets
import ExprFront.Proofs.Refusal

/-!
# Steps of a reading

One equation for each thing that a reading can do next: an operand grows by what
stands after it or by an operation with its right operand, or it stops growing;
the items of a list are read one after the other; a range is filled once the
parentheses around all of it are dropped. Everything holds for any functions in
the place of the two recursive ones.
-/

namespace ExprFront

/-- The token at an index does not belong to an operand that only what binds at least as tightly as
a priority may extend. -/
def Halts (tokens : Array Token) (stop least pos : Nat) : Prop :=
  ∀ k, pos < stop → kindAt tokens pos = some k →
    (least ≤ Operation.afterPriority → k.opens = none ∧ k.after = none) ∧
      ∀ op, k.between = some op → op.priority < least

theorem halts_of_le
    {tokens : Array Token} {stop least pos : Nat} (hstop : stop ≤ pos) :
    Halts tokens stop least pos := by
  intro k hlt
  omega

/-- A punctuation mark that opens nothing belongs to no operand before it. -/
theorem halts_of_punctuation
    {tokens : Array Token} {stop least pos : Nat} {mark : Punctuation}
    (hkind : kindAt tokens pos = some (.punctuation mark)) (hopens : mark.opens = none) :
    Halts tokens stop least pos := by
  intro k _ hk
  rw [hkind] at hk
  cases hk
  simp [hopens]

/-- An operation between operands does not belong to an operand for which it is too loose. -/
theorem halts_of_between
    {tokens : Array Token} {stop least pos : Nat} {k : TokenKind} {op : Operation}
    (hkind : kindAt tokens pos = some k) (hbetween : k.between = some op)
    (hlt : op.priority < least) : Halts tokens stop least pos := by
  intro k' _ hk'
  rw [hkind] at hk'
  cases hk'
  refine ⟨fun _ => ⟨TokenKind.opens_eq_none_of_between hbetween,
    TokenKind.after_eq_none_of_between hbetween⟩, ?_⟩
  intro op' hop'
  rw [hbetween] at hop'
  cases hop'
  exact hlt

/-- What stands after an operand does not belong to it if only tighter operations do. -/
theorem halts_of_afterPriority_lt
    {tokens : Array Token} {stop least pos : Nat} {k : TokenKind}
    (hkind : kindAt tokens pos = some k) (hbetween : k.between = none)
    (hlt : Operation.afterPriority < least) : Halts tokens stop least pos := by
  intro k' _ hk'
  rw [hkind] at hk'
  cases hk'
  refine ⟨fun hle => absurd hle (by omega), ?_⟩
  intro op hop
  simp [hbetween] at hop

namespace Reading

variable {r : Reading} {climb : Climber} {fill : Filler} {depth stop least : Nat}

theorem kind?_eq (r : Reading) (index : Nat) : r.kind? index = kindAt r.tokens index := rfl

/-! ## Growing operands -/

/-- An operand stops growing where the next token does not belong to it. -/
theorem grow_of_halts
    {steps pos : Nat} {previous : Option Operation} {operand : Tree}
    (hhalts : Halts r.tokens stop least pos) (hsize : pos < stop → pos < r.tokens.size) :
    r.grow climb fill depth stop least steps previous operand pos = .ok (operand, pos) := by
  cases steps with
  | zero => rfl
  | succ steps =>
      rw [grow]
      by_cases hstop : stop ≤ pos
      · rw [if_pos hstop]
      · rw [if_neg hstop]
        obtain ⟨k, hk⟩ := exists_kindAt (hsize (by omega))
        obtain ⟨hafter, hbetween⟩ := hhalts k (by omega) hk
        rw [kind?_eq, hk]
        cases hop : k.between with
        | none =>
            by_cases hleast : least ≤ Operation.afterPriority
            · simp [hleast, hafter hleast, hop]
            · simp [hleast, hop]
        | some op =>
            have hlt := hbetween op hop
            by_cases hleast : least ≤ Operation.afterPriority
            · simp [hleast, hafter hleast, hop, hlt]
            · simp [hleast, hop, hlt]

/-- An operand grows by an operator after it. -/
theorem grow_after
    {steps pos : Nat} {previous : Option Operation} {operand : Tree} {k : TokenKind}
    {op : Operation} (hpos : pos < stop) (hkind : kindAt r.tokens pos = some k)
    (hafter : k.after = some op) (hleast : least ≤ Operation.afterPriority) :
    r.grow climb fill depth stop least (steps + 1) previous operand pos =
      r.grow climb fill depth stop least steps previous
        (.node (.operation op) ⟨operand.range.start, pos + 1⟩ [operand]) (pos + 1) := by
  have hopens := TokenKind.opens_eq_none_of_after hafter
  rw [grow, if_neg (by omega), kind?_eq, hkind]
  simp [hleast, hopens, hafter]

/-- An operand grows by a bracket group after it. -/
theorem grow_applied
    {steps pos : Nat} {previous : Option Operation} {operand : Tree} {b : Bracket}
    (hpos : pos < stop) (hkind : kindAt r.tokens pos = some (.punctuation b.opening))
    (hleast : least ≤ Operation.afterPriority) :
    r.grow climb fill depth stop least (steps + 1) previous operand pos =
      match r.applied fill depth operand pos stop b with
      | .ok (operand, next) => r.grow climb fill depth stop least steps previous operand next
      | .error failure => .error failure := by
  have hopens : (TokenKind.punctuation b.opening).opens = some b :=
    TokenKind.opens_eq_some_iff.mpr rfl
  rw [grow, if_neg (by omega), kind?_eq, hkind]
  cases happlied : r.applied fill depth operand pos stop b <;>
    simp only [hleast, if_true, hopens, happlied]

/-- An operand grows by an operation between operands and its right operand. -/
theorem grow_between
    {steps pos : Nat} {previous : Option Operation} {operand : Tree} {k : TokenKind}
    {op : Operation} (hpos : pos + 1 < stop) (hkind : kindAt r.tokens pos = some k)
    (hbetween : k.between = some op) (hle : least ≤ op.priority)
    (hclashes : clashes previous op = false) :
    r.grow climb fill depth stop least (steps + 1) previous operand pos =
      match Attempt.after operand (r.rightOperand climb depth pos stop op) with
      | .ok (right, next) =>
          r.grow climb fill depth stop least steps (some op)
            (.node (.operation op) ⟨operand.range.start, right.range.stop⟩ [operand, right]) next
      | .error failure => .error failure := by
  have hopens := TokenKind.opens_eq_none_of_between hbetween
  have hafter := TokenKind.after_eq_none_of_between hbetween
  have hge : ¬ op.priority < least := by omega
  have hstop : ¬ stop ≤ pos + 1 := by omega
  rw [grow, if_neg (by omega), kind?_eq, hkind]
  cases hright : Attempt.after operand (r.rightOperand climb depth pos stop op) <;>
    simp only [hopens, hafter, hbetween, ite_self, hge, hclashes, hstop, if_false,
      Bool.false_eq_true, hright]

/-! ## Lists -/

/-- A list is read if each of its parts is. -/
theorem items_of_forall₂
    {fillPart : TokenRange → Attempt Tree} {kind : NodeKind} {range : TokenRange}
    {parts : List TokenRange} {trees : List Tree}
    (h : List.Forall₂ (fun part t => fillPart part = .ok t) parts trees) (done : List Tree) :
    items fillPart kind range done parts = .ok (.node kind range (done ++ trees)) := by
  induction h generalizing done with
  | nil => simp [items]
  | cons hpart _ ih => simp [items, hpart, Attempt.after, ih]

/-- A list fails as one of its parts does if those before it are read. -/
theorem items_of_failsBy
    {bad : ParseError → Prop} {fillPart : TokenRange → Attempt Tree} {kind : NodeKind}
    {range : TokenRange} {front back : List TokenRange} {part : TokenRange}
    (hfront : ∀ q ∈ front, ∃ t, fillPart q = .ok t) (hpart : (fillPart part).FailsBy bad)
    (done : List Tree) :
    (items fillPart kind range done (front ++ part :: back)).FailsBy bad := by
  induction front generalizing done with
  | nil =>
      obtain ⟨failure, herror, hbad⟩ := hpart
      rw [List.nil_append, items, herror]
      exact ⟨_, rfl, hbad⟩
  | cons first front ih =>
      obtain ⟨item, hitem⟩ := hfront first List.mem_cons_self
      rw [List.cons_append, items, hitem]
      exact ih (fun q hq => hfront q (List.mem_cons_of_mem first hq)) (done ++ [item])

/-- A bracket group of which the scope is known is read part by part. -/
theorem list_of_resolve
    {pos : Nat} {b : Bracket} {kind : NodeKind} {production : Production} {separated : Separated}
    (hresolve : Separated.resolve r.tokens ⟨pos, stop⟩ b .comma = .ok separated) :
    r.list fill depth pos stop b kind production =
      match items (fun part => fill depth part production) kind separated.scope.range []
          separated.parts with
      | .ok t => .ok (t, separated.scope.stop)
      | .error failure => .error failure := by
  simp only [list, hresolve, Attempt.ofScope, liftScope, Attempt.lift, bind, Except.bind]
  cases items (fun part => fill depth part production) kind separated.scope.range []
    separated.parts <;> rfl

/-! ## Operands -/

/-- An operand is read with the operation before it. -/
theorem prefixed_of_before
    {pos : Nat} {k : TokenKind} {op : Operation} (hkind : kindAt r.tokens pos = some k)
    (hbefore : k.before = some op) (hpos : pos + 1 < stop) :
    r.prefixed climb fill depth pos stop =
      match r.deeper depth pos (climb (depth + 1) (pos + 1) stop Operation.beforePriority) with
      | .ok (operand, next) =>
          .ok (.node (.operation op) ⟨pos, operand.range.stop⟩ [operand], next)
      | .error failure => .error failure := by
  have hstop : ¬ stop ≤ pos + 1 := by omega
  cases hoperand : r.deeper depth pos
      (climb (depth + 1) (pos + 1) stop Operation.beforePriority) <;>
    simp only [prefixed, kind?_eq, hkind, hbefore, hstop, if_false, hoperand]

/-- A single token is an operand. -/
theorem prefixed_of_leaf
    {pos : Nat} {k : TokenKind} {kind : NodeKind} (hkind : kindAt r.tokens pos = some k)
    (hleaf : NodeKind.ofToken? k = some kind) :
    r.prefixed climb fill depth pos stop = .ok (.leaf kind ⟨pos, pos + 1⟩, pos + 1) := by
  have hbefore := TokenKind.before_eq_none_of_isOperand (NodeKind.isOperand_of_ofToken? hleaf)
  simp [prefixed, primary, kind?_eq, hkind, hbefore, hleaf]

/-- Grouping parentheses are read as a subexpression. -/
theorem prefixed_of_paren
    {pos : Nat} (hkind : kindAt r.tokens pos = some (.punctuation .lparen))
    (hinserted : r.isInserted pos .lparen = false) :
    r.prefixed climb fill depth pos stop = r.subexpression fill depth pos stop := by
  have hopens : (TokenKind.punctuation .lparen).opens = some .paren := rfl
  simp only [prefixed, primary, kind?_eq, hkind, TokenKind.before_punctuation,
    NodeKind.ofToken?, hopens, hinserted, Bool.false_eq_true, if_false]

/-- Parentheses that were inserted are read from the inside out. -/
theorem prefixed_of_inserted
    {pos : Nat} (hkind : kindAt r.tokens pos = some (.punctuation .lparen))
    (hinserted : r.isInserted pos .lparen = true) :
    r.prefixed climb fill depth pos stop = r.insertedGroups climb fill depth pos stop := by
  have hopens : (TokenKind.punctuation .lparen).opens = some .paren := rfl
  simp only [prefixed, primary, kind?_eq, hkind, TokenKind.before_punctuation,
    NodeKind.ofToken?, hopens, hinserted, if_true]

/-- Other brackets are read as a list. -/
theorem prefixed_of_list
    {pos : Nat} {b : Bracket} (hkind : kindAt r.tokens pos = some (.punctuation b.opening))
    (hb : b ≠ .paren) :
    ∃ production, production ≠ .grouping ∧ r.prefixed climb fill depth pos stop =
      r.list fill depth pos stop b b.nodeKind production := by
  cases b with
  | paren => exact absurd rfl hb
  | square =>
      refine ⟨.listLiteral, by decide, ?_⟩
      have hopens : (TokenKind.punctuation Bracket.square.opening).opens = some .square := rfl
      simp only [prefixed, primary, kind?_eq, hkind, TokenKind.before_punctuation,
        NodeKind.ofToken?, hopens]
      rfl
  | brace =>
      refine ⟨.initializerList, by decide, ?_⟩
      have hopens : (TokenKind.punctuation Bracket.brace.opening).opens = some .brace := rfl
      simp only [prefixed, primary, kind?_eq, hkind, TokenKind.before_punctuation,
        NodeKind.ofToken?, hopens]
      rfl

/-- A scope that is known is read as a subexpression if its interior is. -/
theorem subexpression_of_matching
    {pos : Nat} {scope : Scope}
    (hmatching : Scope.matching r.tokens ⟨pos, stop⟩ .paren = .ok scope)
    (hinterior : scope.interior.isEmpty = false) :
    r.subexpression fill depth pos stop =
      match fill depth scope.interior .subexpression with
      | .ok inner => .ok (.node .subexpression scope.range [inner], scope.stop)
      | .error failure => .error failure := by
  simp only [subexpression, hmatching, Attempt.ofScope, liftScope, Attempt.lift, bind,
    Except.bind, hinterior, Bool.false_eq_true, if_false]
  cases fill depth scope.interior .subexpression <;> rfl

/-! ## Ranges -/

/-- A range without parentheses around it is filled. -/
def fillInner
    (r : Reading) (climb : Climber) (depth : Nat) (production : Production) (inner : TokenRange) :
    Attempt Tree :=
  if inner.isEmpty then .fail (r.misplaced .emptyOperand production inner.start)
  else match climb (depth + 1) inner.start inner.stop 0 with
    | .error failure => .error failure
    | .ok (t, next) =>
        if next < inner.stop then .failAfter t (r.surplus production next) else .ok t

/-- A range is filled by what is left of it without the parentheses around it. -/
theorem fillWith_eq
    {range : TokenRange} {production : Production} :
    r.fillWith climb depth range production =
      r.deeper depth range.start
        (match r.dropOuterParens production range.length range with
        | .error e => .fail e
        | .ok inner => r.fillInner climb depth production inner) := by
  unfold fillWith
  cases r.dropOuterParens production range.length range with
  | error e => rfl
  | ok inner =>
      simp only [Attempt.lift, bind, Except.bind, fillInner]
      split
      · rfl
      · cases climb (depth + 1) inner.start inner.stop 0 <;> rfl

/-- Nothing is dropped from a range that does not start with a parenthesis. -/
theorem dropOuterParens_of_ne
    {production : Production} {steps : Nat} {range : TokenRange}
    (hfirst : kindAt r.tokens range.start ≠ some (.punctuation .lparen)) :
    r.dropOuterParens production steps range = .ok range := by
  cases steps with
  | zero => rfl
  | succ steps =>
      rw [dropOuterParens, kind?_eq, if_pos (Or.inr hfirst)]

/-- Nothing is dropped from a range whose leading parentheses close before its end. -/
theorem dropOuterParens_of_lt
    {production : Production} {steps start middle : Nat}
    (hmatching : Scope.matching r.tokens ⟨start, stop⟩ .paren = .ok ⟨start, middle⟩)
    (hlt : middle < stop) :
    r.dropOuterParens production steps ⟨start, stop⟩ = .ok ⟨start, stop⟩ := by
  cases steps with
  | zero => rfl
  | succ steps =>
      rw [dropOuterParens]
      split
      · rfl
      · have hne : middle ≠ stop := by omega
        simp [hmatching, liftScope, bind, Except.bind, hne]

/-- Parentheses around all of a range are dropped. -/
theorem dropOuterParens_of_eq
    {production : Production} {steps start : Nat}
    (hfirst : kindAt r.tokens start = some (.punctuation .lparen))
    (hmatching : Scope.matching r.tokens ⟨start, stop⟩ .paren = .ok ⟨start, stop⟩) :
    r.dropOuterParens production (steps + 1) ⟨start, stop⟩ =
      if stop - 1 ≤ start + 1 then .error (r.misplaced .emptyOperand production start)
      else r.dropOuterParens production steps ⟨start + 1, stop - 1⟩ := by
  have hbounds := Scope.bounds_of_matching hmatching
  have hempty : ¬ stop ≤ start := by omega
  rw [dropOuterParens, kind?_eq]
  simp [hfirst, hmatching, liftScope, bind, Except.bind, TokenRange.isEmpty, hempty,
    Scope.interior]

/-- Nothing is dropped from an empty range. -/
theorem dropOuterParens_of_length_eq_zero
    {production : Production} {steps : Nat} {range : TokenRange} (hlength : range.length = 0) :
    r.dropOuterParens production steps range = .ok range := by
  cases steps with
  | zero => rfl
  | succ steps =>
      rw [dropOuterParens, if_pos (Or.inl (range.isEmpty_iff_length_eq_zero.mpr hlength))]

/-- One step for each token of the range is enough to drop the parentheses around it. -/
theorem dropOuterParens_of_length_le
    {production : Production} {steps more : Nat} {range : TokenRange}
    (hsteps : range.length ≤ steps) (hmore : range.length ≤ more) :
    r.dropOuterParens production steps range = r.dropOuterParens production more range := by
  induction steps generalizing more range with
  | zero =>
      rw [dropOuterParens_of_length_eq_zero (by omega),
        dropOuterParens_of_length_eq_zero (by omega)]
  | succ steps ih =>
      cases more with
      | zero =>
          rw [dropOuterParens_of_length_eq_zero (by omega),
            dropOuterParens_of_length_eq_zero (by omega)]
      | succ more =>
          rw [dropOuterParens, dropOuterParens]
          split
          · rfl
          · cases hmatching : Scope.matching r.tokens range .paren with
            | error e => rfl
            | ok scope =>
                have hbounds := Scope.bounds_of_matching hmatching
                have hinterior : scope.interior.length + 2 ≤ range.length := by
                  simp only [Scope.interior, TokenRange.length]
                  omega
                simp only [liftScope, bind, Except.bind]
                split
                · rfl
                · split
                  · rfl
                  · exact ih (by omega) (by omega)

end Reading

end ExprFront
