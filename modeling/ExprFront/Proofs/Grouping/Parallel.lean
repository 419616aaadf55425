import ExprFront.Proofs.Grouping.Steps
import ExprFront.Proofs.Parallel
import Mathlib.Data.List.InsertIdx

/-!
# Grouping side by side

An expression in a window of the tokens is grouped as it is grouped in the
excerpt, and under a larger limit as under a smaller one, until the smaller
limit or the bound on recursion is reached. The results have the same tokens;
only the indices of what was copied differ by the offset, both in the result
and in the open applications above the sentinel.
-/

namespace ExprFront

/-- The token of a result, copied so many tokens later. -/
def GroupedToken.moved (offset : Nat) (e : GroupedToken) : GroupedToken :=
  ⟨e.token, e.source.map (offset + ·)⟩

/-- The grouped expression, copied so many tokens later. -/
def Grouped.moved (offset : Nat) (g : Grouped) : Grouped := ⟨g.entries.map (.moved offset)⟩

namespace Grouping

/-- The open application, with its operator so many tokens later. -/
def OpenApplication.moved (offset : Nat) (c : OpenApplication) : OpenApplication :=
  { c with operator := offset + c.operator }

/-- Stacks with one sentinel and the same open applications, of which the operators lie in the
window. -/
inductive StackBeside (offset bound : Nat) : List OpenApplication → List OpenApplication → Prop
  | sentinel (c : OpenApplication) : StackBeside offset bound [c] [c]
  | push {stack stack' : List OpenApplication} {c : OpenApplication} (hc : c.operator < bound)
      (hrest : StackBeside offset bound stack stack') :
      StackBeside offset bound (c.moved offset :: stack) (c :: stack')

theorem StackBeside.exists_cons
    {offset bound : Nat} {stack stack' : List OpenApplication}
    (h : StackBeside offset bound stack stack') :
    ∃ top rest top' rest', stack = top :: rest ∧ stack' = top' :: rest' := by
  cases h with
  | sentinel c => exact ⟨c, [], c, [], rfl, rfl⟩
  | push => exact ⟨_, _, _, _, rfl, rfl⟩

/-- Groupings that have come equally far. -/
structure Progress.Beside (offset bound : Nat) (p p' : Progress) : Prop where
  out_eq : p.out = p'.out.map (.moved offset)
  stack : StackBeside offset bound p.stack p'.stack
  head_eq : p.head = offset + p'.head
  operandStart_eq : p.operandStart = p'.operandStart
  head_le : p'.head ≤ bound

variable {early : ParseError → Prop} {offset bound : Nat} {tokens excerpt : Array Token}

/-- Results that are the same but for the offset, or the same error. -/
def Emitted (early : ParseError → Prop) (offset : Nat)
    (result other : Except ParseError (Array GroupedToken)) : Prop :=
  Follows early Eq (fun out out' => out = out'.map (.moved offset)) result other

/-- An operator in the window opens an application on either side. -/
theorem Progress.Beside.push
    {p p' : Progress} (hp : Progress.Beside offset bound p p') {c : OpenApplication}
    (hhead : p'.head < bound) (hc : c.operator = p'.head) (taken : Array GroupedToken) :
    Progress.Beside offset bound
      ⟨taken.map (.moved offset), c.moved offset :: p.stack, offset + p'.head + 1, p.operandStart⟩
      ⟨taken, c :: p'.stack, p'.head + 1, p'.operandStart⟩ :=
  ⟨rfl, .push (by omega) hp.stack, Nat.add_assoc _ _ _, hp.operandStart_eq, hhead⟩

/-- Parts in the window are grouped side by side. -/
def RecurseTracks (early : ParseError → Prop) (offset bound : Nat)
    (recurse other : TokenRange → Emit) : Prop :=
  ∀ part out, part.start < bound → part.stop ≤ bound →
    Emitted early offset (recurse (part.moved offset) (out.map (.moved offset))) (other part out)

section Window

variable (h : Window tokens excerpt offset bound)
include h

theorem misplaced_eq
    {i : Nat} (hi : i < bound) (kind : Misplacement) :
    misplaced tokens kind (offset + i) = misplaced excerpt kind i := by
  simp only [misplaced, ParseError.misplacedAt, ExpressionError.atIndex, h.spot_eq hi]

/-! ## Emitted tokens -/

theorem emitted_take
    {i : Nat} (hi : i < bound) (out : Array GroupedToken) :
    Emitted early offset (take tokens (offset + i) (out.map (.moved offset)))
      (take excerpt i out) := by
  obtain ⟨t, ht, ht'⟩ := h.exists_token hi
  simp only [take, ht, ht']
  exact .ok (by simp [GroupedToken.moved])

theorem emitted_parenthesize
    {anchor : Nat} (hanchor : anchor < bound) (start : Nat) (out : Array GroupedToken) :
    Emitted early offset
      (parenthesize tokens start (offset + anchor) (out.map (.moved offset)))
      (parenthesize excerpt start anchor out) := by
  obtain ⟨t, ht, ht'⟩ := h.exists_token hanchor
  simp only [parenthesize, ht, ht', Array.getElem?_map]
  cases out[start]? with
  | none => exact .error rfl
  | some first =>
      refine .ok ?_
      cases out
      simp [GroupedToken.moved, List.map_insertIdx]

theorem emitted_groupParts
    {recurse recurse' : TokenRange → Emit}
    (hrecurse : RecurseTracks early offset bound recurse recurse') {parts : List TokenRange}
    (hparts : ∀ part ∈ parts, 0 < part.start ∧ part.start < bound ∧ part.stop ≤ bound)
    (out : Array GroupedToken) :
    Emitted early offset
      (groupParts tokens recurse (parts.map (TokenRange.moved offset)) (out.map (.moved offset)))
      (groupParts excerpt recurse' parts out) := by
  induction parts generalizing out with
  | nil => exact .ok rfl
  | cons part parts ih =>
      obtain ⟨⟨hpos, hstart, hstop⟩, hmore⟩ := List.forall_mem_cons.mp hparts
      have hcomma : (part.moved offset).start - 1 = offset + (part.start - 1) := by
        rw [TokenRange.start_moved]
        omega
      rw [List.map_cons, groupParts, groupParts, hcomma]
      refine (emitted_take h (by omega) out).bind fun _ taken heq _ => ?_
      subst heq
      refine (hrecurse part taken hstart hstop).bind fun _ grouped heq _ => ?_
      subst heq
      exact ih hmore grouped

theorem emitted_groupInterior
    {recurse recurse' : TokenRange → Emit}
    (hrecurse : RecurseTracks early offset bound recurse recurse') {parts : List TokenRange}
    (hparts : ∀ part ∈ parts, 0 < part.start ∧ part.start < bound ∧ part.stop ≤ bound)
    (out : Array GroupedToken) :
    Emitted early offset
      (groupInterior tokens recurse (parts.map (TokenRange.moved offset))
        (out.map (.moved offset)))
      (groupInterior excerpt recurse' parts out) := by
  cases parts with
  | nil => exact .ok rfl
  | cons part parts =>
      obtain ⟨⟨-, hstart, hstop⟩, hmore⟩ := List.forall_mem_cons.mp hparts
      refine (hrecurse part out hstart hstop).bind fun _ grouped heq _ => ?_
      subst heq
      exact emitted_groupParts h hrecurse hmore grouped

/-- A bracket group is copied side by side; its closing token lies in the window. -/
theorem follows_groupBrackets
    {recurse recurse' : TokenRange → Emit}
    (hrecurse : RecurseTracks early offset bound recurse recurse') {opening stop : Nat}
    (hopening : opening < stop) (hstop : stop ≤ bound) (b : Bracket) (out : Array GroupedToken) :
    Follows early Eq
      (fun result result' => result = (offset + result'.1, result'.2.map (.moved offset)) ∧
        result'.1 < stop)
      (groupBrackets tokens recurse (offset + opening) (offset + stop) b (out.map (.moved offset)))
      (groupBrackets excerpt recurse' opening stop b out) := by
  have hresolve := h.separated_eq ⟨opening, stop⟩ hopening hstop b .comma
  simp only [TokenRange.moved] at hresolve
  cases hseparated : Separated.resolve excerpt ⟨opening, stop⟩ b .comma with
  | error e =>
      rw [groupBrackets, groupBrackets, hresolve, hseparated]
      exact .error rfl
  | ok separated =>
      rw [hseparated] at hresolve
      obtain ⟨⟨hlength, -, hparts⟩, hscope, hend⟩ := Separated.within_of_resolve hseparated
      dsimp only at hscope hend
      have hwithin : ∀ part ∈ separated.parts,
          0 < part.start ∧ part.start < bound ∧ part.stop ≤ bound := by
        intro part hpart
        have hbounds := hparts part hpart
        omega
      have hclosing : (separated.moved offset).scope.stop - 1 =
          offset + (separated.scope.stop - 1) := by
        rw [Separated.moved, Scope.stop_moved]
        omega
      rw [groupBrackets_of_resolve hresolve, groupBrackets_of_resolve hseparated, hclosing]
      refine (emitted_take h (by omega : separated.scope.start < bound) out).bind
        fun _ first heq _ => ?_
      subst heq
      refine (emitted_groupInterior h hrecurse hwithin first).bind fun _ inside heq _ => ?_
      subst heq
      refine (emitted_take h (by omega : separated.scope.stop - 1 < bound) inside).bind
        fun _ last heq _ => ?_
      subst heq
      exact .ok ⟨rfl, by dsimp only; omega⟩

/-! ## Open applications -/

theorem follows_settle
    {closes closes' : OpenApplication → Except ParseError Bool}
    (hcloses : ∀ c, closes (c.moved offset) = closes' c) {stack stack' : List OpenApplication}
    (hstack : StackBeside offset bound stack stack') (out : Array GroupedToken)
    (operandStart : Nat) :
    Follows early Eq
      (fun result result' => StackBeside offset bound result.1 result'.1 ∧
        result.2 = (result'.2.1.map (.moved offset), result'.2.2))
      (settle tokens closes stack (out.map (.moved offset)) operandStart)
      (settle excerpt closes' stack' out operandStart) := by
  induction hstack generalizing out operandStart with
  | sentinel c => exact .ok ⟨.sentinel c, rfl⟩
  | @push stack stack' c hc hrest ih =>
      obtain ⟨below, rest, below', rest', rfl, rfl⟩ := hrest.exists_cons
      rw [settle, settle, hcloses]
      cases closes' c with
      | error e => exact .error rfl
      | ok close =>
          cases close with
          | false => exact .ok ⟨.push hc hrest, rfl⟩
          | true =>
              refine (emitted_parenthesize h hc c.start out).bind fun _ larger heq _ => ?_
              subst heq
              exact ih larger c.start

theorem Progress.Beside.settle
    {closes closes' : OpenApplication → Except ParseError Bool}
    (hcloses : ∀ c, closes (c.moved offset) = closes' c) {p p' : Progress}
    (hp : Progress.Beside offset bound p p') :
    Follows early Eq (fun q q' => Progress.Beside offset bound q q' ∧ q'.head = p'.head)
      (p.settle tokens closes) (p'.settle excerpt closes') := by
  unfold Progress.settle
  rw [hp.out_eq, hp.operandStart_eq]
  refine (follows_settle h hcloses hp.stack p'.out p'.operandStart).bind
    fun result result' heq _ => ?_
  obtain ⟨stack, out, operandStart⟩ := result
  obtain ⟨hstack, heq⟩ := heq
  cases heq
  exact .ok ⟨⟨rfl, hstack, hp.head_eq, rfl, hp.head_le⟩, rfl⟩

theorem Progress.Beside.finish
    {p p' : Progress} (hp : Progress.Beside offset bound p p') :
    Emitted early offset (p.finish tokens) (p'.finish excerpt) := by
  refine (hp.settle h (fun _ => rfl)).bind fun q q' hq _ => ?_
  exact .ok hq.1.out_eq

theorem closedBy_moved
    {i : Nat} (hi : i < bound) (op : Operation) (c : OpenApplication) :
    closedBy tokens op (offset + i) (c.moved offset) = closedBy excerpt op i c := by
  unfold closedBy
  rw [misplaced_eq h hi]
  rfl

/-! ## Operands and operators -/

theorem requireFilled_eq
    {opening stop : Nat} (hopening : opening < stop) (hstop : stop ≤ bound) (b : Bracket) :
    requireFilled tokens (offset + opening) (offset + stop) b =
      requireFilled excerpt opening stop b := by
  cases b with
  | paren =>
      have hmatching := h.matching_eq ⟨opening, stop⟩ hopening hstop .paren
      simp only [TokenRange.moved] at hmatching
      simp only [requireFilled]
      rw [hmatching]
      cases hscope : Scope.matching excerpt ⟨opening, stop⟩ .paren with
      | error e => rfl
      | ok scope =>
          have hbounds := Scope.bounds_of_matching hscope
          simp only [Except.map, liftScope, bind, Except.bind,
            Scope.interior_moved (by omega : 0 < scope.stop), TokenRange.isEmpty_moved,
            Scope.start_moved, misplaced_eq h (by omega : scope.start < bound)]
  | square => rfl
  | brace => rfl

/-- An operand is missing only after at least one token, which lies in the window. -/
theorem Progress.Beside.missing_eq
    {p p' : Progress} (hp : Progress.Beside offset bound p p') (hpos : 0 < p'.head) :
    misplaced tokens .missingOperand (p.head - 1) =
      misplaced excerpt .missingOperand (p'.head - 1) := by
  have hle := hp.head_le
  rw [hp.head_eq, Nat.add_sub_assoc hpos]
  exact misplaced_eq h (by omega) _

theorem follows_operand
    {recurse recurse' : TokenRange → Emit}
    (hrecurse : RecurseTracks early offset bound recurse recurse') {range : TokenRange}
    (hstop : range.stop ≤ bound) (steps : Nat) {p p' : Progress}
    (hp : Progress.Beside offset bound p p')
    (hhead : 0 < p'.head ∨ p'.head < range.stop ∧ 0 < steps) :
    Follows early Eq (Progress.Beside offset bound)
      (operand tokens recurse (range.moved offset) steps p)
      (operand excerpt recurse' range steps p') := by
  induction steps generalizing p p' with
  | zero =>
      rw [operand, operand]
      exact .error (hp.missing_eq h (by omega))
  | succ steps ih =>
      have hheadEq := hp.head_eq
      have hstack := hp.stack
      by_cases hend : range.stop ≤ p'.head
      -- The operand is missed at the token before, so there has to be one in the window.
      · rw [operand, operand, TokenRange.stop_moved, if_pos (by omega), if_pos hend]
        exact .error (hp.missing_eq h (by omega))
      have hlt : p'.head < bound := by omega
      obtain ⟨t, ht, ht'⟩ := h.exists_token hlt
      rw [operand, operand, TokenRange.stop_moved, TokenRange.start_moved, if_neg (by omega),
        if_neg hend, hheadEq, ht, ht', hp.out_eq, Array.size_map]
      dsimp only
      split
      · refine (emitted_take h hlt p'.out).bind fun _ taken heq _ => ?_
        subst heq
        have hpushed := hp.push
          (c := ⟨.before, Operation.beforePriority, .right, p'.out.size, p'.head⟩) hlt rfl taken
        exact ih hpushed (.inl (Nat.succ_pos _))
      cases t.kind.opens with
      | some b =>
          dsimp only
          rw [requireFilled_eq h (by omega) hstop]
          cases requireFilled excerpt p'.head range.stop b with
          | error e => exact .error rfl
          | ok _ =>
              refine (follows_groupBrackets h hrecurse (by omega) hstop b p'.out).bind
                fun _ result heq _ => ?_
              obtain ⟨rfl, hclosing⟩ := heq
              exact .ok ⟨rfl, hstack, Nat.add_assoc _ _ _, rfl, by dsimp only; omega⟩
      | none =>
          dsimp only
          split
          · refine (emitted_take h hlt p'.out).bind fun _ taken heq _ => ?_
            subst heq
            exact .ok ⟨rfl, hstack, Nat.add_assoc _ _ _, rfl, hlt⟩
          · rw [misplaced_eq h hlt, misplaced_eq h hlt]
            simp only [ne_eq, Nat.add_left_cancel_iff]
            split
            · exact .error rfl
            · exact .error rfl

theorem emitted_operators
    {recurse recurse' : TokenRange → Emit}
    (hrecurse : RecurseTracks early offset bound recurse recurse') {range : TokenRange}
    (hstop : range.stop ≤ bound) (steps : Nat) {p p' : Progress}
    (hp : Progress.Beside offset bound p p') :
    Emitted early offset (operators tokens recurse (range.moved offset) steps p)
      (operators excerpt recurse' range steps p') := by
  induction steps generalizing p p' with
  | zero => exact hp.finish h
  | succ steps ih =>
      have hheadEq := hp.head_eq
      by_cases hend : range.stop ≤ p'.head
      · rw [operators, operators, TokenRange.stop_moved, if_pos (by omega), if_pos hend]
        exact hp.finish h
      have hlt : p'.head < bound := by omega
      obtain ⟨t, ht, ht'⟩ := h.exists_token hlt
      rw [operators, operators, TokenRange.stop_moved, TokenRange.length_moved, if_neg (by omega),
        if_neg hend, hheadEq, ht, ht']
      dsimp only
      cases t.kind.opens with
      | some b =>
          refine (hp.settle h (fun _ => rfl)).bind fun q q' hq _ => ?_
          obtain ⟨hq, hhead⟩ := hq
          rw [hq.head_eq, hq.out_eq, hq.operandStart_eq]
          refine (follows_groupBrackets h hrecurse (by omega) hstop b q'.out).bind
            fun _ result heq _ => ?_
          obtain ⟨rfl, hclosing⟩ := heq
          refine (emitted_parenthesize h (by omega) q'.operandStart result.2).bind
            fun _ out heq _ => ?_
          subst heq
          exact ih ⟨rfl, hq.stack, Nat.add_assoc _ _ _, rfl, by dsimp only; omega⟩
      | none =>
          cases t.kind.operator? with
          | none =>
              dsimp only
              split
              · exact .error (misplaced_eq h hlt _)
              · exact .error (misplaced_eq h hlt _)
          | some op =>
              dsimp only
              cases op.after with
              | some _ =>
                  refine (hp.settle h (fun _ => rfl)).bind fun q q' hq _ => ?_
                  obtain ⟨hq, hhead⟩ := hq
                  rw [hq.head_eq, hq.out_eq, hq.operandStart_eq]
                  refine (emitted_take h (by omega) q'.out).bind fun _ taken heq _ => ?_
                  subst heq
                  refine (emitted_parenthesize h (by omega) q'.operandStart taken).bind
                    fun _ out heq _ => ?_
                  subst heq
                  exact ih ⟨rfl, hq.stack, Nat.add_assoc _ _ _, rfl, by dsimp only; omega⟩
              | none =>
                  cases op.between with
                  | none => exact .error (misplaced_eq h hlt _)
                  | some operation =>
                      refine (hp.settle h (closedBy_moved h hlt operation)).bind
                        fun q q' hq _ => ?_
                      obtain ⟨hq, hhead⟩ := hq
                      rw [hq.head_eq, hq.out_eq, hq.operandStart_eq]
                      refine (emitted_take h (by omega) q'.out).bind fun _ taken heq _ => ?_
                      subst heq
                      have hpushed := hq.push
                        (c := .ofOperation operation q'.operandStart q'.head)
                        (by omega : q'.head < bound) rfl taken
                      rw [hq.operandStart_eq] at hpushed
                      refine (follows_operand h hrecurse hstop range.length hpushed
                        (.inl (Nat.succ_pos _))).bind fun next next' hnext _ => ?_
                      exact ih hnext

/-! ## Whole expressions -/

theorem emitted_expressionWith
    {recurse recurse' : TokenRange → Emit} {limit limit' : Nat}
    (hrecurse : RecurseTracks early offset bound recurse recurse')
    (hlimit : limit = limit' ∨ limit ≤ limit' ∧ ∀ spot, early (.nestingTooDeep limit spot))
    (depth : Nat) :
    RecurseTracks early offset bound (expressionWith tokens limit recurse depth)
      (expressionWith excerpt limit' recurse' depth) := by
  intro range out hstart hstop
  unfold expressionWith
  rw [TokenRange.isEmpty_moved, TokenRange.start_moved, TokenRange.length_moved, Array.size_map]
  split
  · exact .error (misplaced_eq h hstart _)
  rename_i hnonempty
  have hlt : range.start < range.stop := by simpa [TokenRange.isEmpty] using hnonempty
  have hgroup : Emitted early offset
      (do
        let p ← operand tokens recurse (range.moved offset) range.length
          ⟨out.map (.moved offset), [.sentinel], offset + range.start, out.size⟩
        operators tokens recurse (range.moved offset) range.length p)
      (do
        let p ← operand excerpt recurse' range range.length
          ⟨out, [.sentinel], range.start, out.size⟩
        operators excerpt recurse' range range.length p) := by
    have hbeside : Progress.Beside offset bound
        ⟨out.map (.moved offset), [.sentinel], offset + range.start, out.size⟩
        ⟨out, [.sentinel], range.start, out.size⟩ :=
      ⟨rfl, .sentinel _, rfl, rfl, Nat.le_of_lt hstart⟩
    refine (follows_operand h hrecurse hstop range.length hbeside
      (.inr ⟨hlt, Nat.sub_pos_of_lt hlt⟩)).bind fun p p' hp _ => ?_
    exact emitted_operators h hrecurse hstop range.length hp
  rcases hlimit with rfl | ⟨hlimit, hearly⟩
  · split
    · exact .error (by rw [ParseError.tooDeepAt, ParseError.tooDeepAt, h.spot_eq hstart])
    · exact hgroup
  · split
    · exact .early (hearly _) _
    · rw [if_neg (by omega)]
      exact hgroup

theorem recurseTracks_expression
    {limit limit' : Nat}
    (hlimit : limit = limit' ∨ limit ≤ limit' ∧ ∀ spot, early (.nestingTooDeep limit spot))
    (fuel fuel' depth : Nat)
    (hfuel : fuel = fuel' ∨ fuel ≤ fuel' ∧ early (.fault .exhausted)) :
    RecurseTracks early offset bound (expression tokens limit fuel depth)
      (expression excerpt limit' fuel' depth) := by
  induction fuel generalizing fuel' depth with
  | zero =>
      intro range out _ _
      rcases hfuel with rfl | ⟨-, hearly⟩
      · exact .error rfl
      · exact .early hearly _
  | succ fuel ih =>
      obtain ⟨fuel', rfl⟩ : ∃ less, fuel' = less + 1 := ⟨fuel' - 1, by omega⟩
      intro range out hstart hstop
      rw [expression, expression]
      exact emitted_expressionWith h (ih fuel' (depth + 1) (by simpa using hfuel)) hlimit depth
        range out hstart hstop

end Window

end Grouping

/-- An expression in a window is grouped side by side. -/
theorem follows_groupTokens
    {early : ParseError → Prop} {offset bound : Nat} {tokens excerpt : Array Token}
    (h : Window tokens excerpt offset bound) {limit limit' : Nat}
    (hlimit : limit = limit' ∨ limit ≤ limit' ∧ ∀ spot, early (.nestingTooDeep limit spot))
    (hexhausted : limit = limit' ∨ early (.fault .exhausted)) {range : TokenRange}
    (hstart : range.start < bound) (hstop : range.stop ≤ bound) :
    Follows early Eq (fun g g' => g = g'.moved offset)
      (groupTokens tokens (range.moved offset) limit) (groupTokens excerpt range limit') := by
  have hfuel : recursionBound limit = recursionBound limit' ∨
      recursionBound limit ≤ recursionBound limit' ∧ early (.fault .exhausted) := by
    rcases hexhausted with rfl | hearly
    · exact .inl rfl
    · refine .inr ⟨?_, hearly⟩
      simp only [recursionBound]
      omega
  have hentries := Grouping.recurseTracks_expression h hlimit _ _ 0 hfuel range #[] hstart hstop
  rw [Array.map_empty] at hentries
  unfold groupTokens
  generalize Grouping.expression tokens limit (recursionBound limit) 0 (range.moved offset) #[] =
    entries at hentries ⊢
  generalize Grouping.expression excerpt limit' (recursionBound limit') 0 range #[] =
    entries' at hentries ⊢
  cases hentries with
  | ok heq => exact .ok (by rw [heq]; rfl)
  | error heq => exact .error heq
  | early hearly => exact .early hearly _

/-- Nothing is grouped in an empty range. -/
theorem groupTokens_of_isEmpty
    (tokens : Array Token) {range : TokenRange} (h : range.isEmpty = true) (limit : Nat) :
    groupTokens tokens range limit =
      .error (Grouping.misplaced tokens .emptyOperand range.start) := by
  have hfuel : recursionBound limit = 64 * limit + 63 + 1 := by
    simp only [recursionBound]
    omega
  rw [groupTokens, hfuel, Grouping.expression, Grouping.expressionWith, if_pos h]

@[simp] theorem Grouped.moved_zero
    (g : Grouped) : g.moved 0 = g := by
  have hid : GroupedToken.moved 0 = id := by
    funext e
    simp [GroupedToken.moved]
  rw [moved, hid, Array.map_id]

end ExprFront
