import ExprFront.Expression.Climb
import ExprFront.Proofs.Parallel
import ExprFront.Proofs.Reading.Phrased

/-!
# Reading side by side

An expression in a window of the tokens is read as it is read in the excerpt,
and under a larger limit as under a smaller one, until the smaller limit or the
bound on recursion is reached. Both are one statement about two readings of one
window: their outcomes agree but for the offset, unless the first one ends
early.

Only one function looks at a token before the window: which error a first token
that starts no operand has depends on whether an operator stands before it.
-/

namespace ExprFront

open Attempt

namespace Reading

/-- Two readings of one window. The limits agree, or the smaller one lets the first reading end
early. In the first place of the window stands no operator that would be taken for one that
follows another operator before the window. -/
structure Beside (r other : Reading) (early : ParseError → Prop) (offset bound : Nat) : Prop where
  window : Window r.tokens other.tokens offset bound
  isInserted_eq : ∀ i mark, r.isInserted (offset + i) mark = other.isInserted i mark
  limit : r.limit = other.limit ∨
    r.limit ≤ other.limit ∧ ∀ spot, early (.nestingTooDeep r.limit spot)
  first : ∀ k, 0 < offset → (r.kind? (offset - 1)).any TokenKind.isOperator = true →
    r.kind? offset = some k → k.before = none → k.isOperator = false

/-- Operands in the window are read side by side. -/
def ClimbTracks (early : ParseError → Prop) (offset bound : Nat) (climb other : Climber) : Prop :=
  ∀ depth pos stop least, pos < stop → stop ≤ bound →
    Tracks early offset (movedFound offset) (climb depth (offset + pos) (offset + stop) least)
      (other depth pos stop least)

/-- Ranges in the window are filled side by side. -/
def FillTracks (early : ParseError → Prop) (offset bound : Nat) (fill other : Filler) : Prop :=
  ∀ depth range production, range.start < bound → range.stop ≤ bound →
    Tracks early offset (Tree.moved offset) (fill depth (range.moved offset) production)
      (other depth range production)

/-! ## Steps as binds -/

theorem items_cons
    (fill : TokenRange → Attempt Tree) (kind : NodeKind) (range : TokenRange) (done : List Tree)
    (part : TokenRange) (parts : List TokenRange) :
    items fill kind range done (part :: parts) =
      Attempt.after (.node kind range done) (fill part) >>= fun item =>
        items fill kind range (done ++ [item]) parts := by
  rw [items]
  cases Attempt.after (.node kind range done) (fill part) <;> rfl

theorem grow_of_clash
    {r : Reading} {climb : Climber} {fill : Filler} {depth stop least steps pos : Nat}
    {previous : Option Operation} {operand : Tree} {k : TokenKind} {op : Operation}
    (hpos : pos < stop) (hkind : kindAt r.tokens pos = some k) (hbetween : k.between = some op)
    (hle : least ≤ op.priority) (hclashes : clashes previous op = true) :
    r.grow climb fill depth stop least (steps + 1) previous operand pos =
      .failAfter operand (r.misplaced .nonAssociative .expression pos) := by
  have hopens := TokenKind.opens_eq_none_of_between hbetween
  have hafter := TokenKind.after_eq_none_of_between hbetween
  rw [grow, if_neg (by omega), kind?_eq, hkind]
  simp only [hopens, hafter, hbetween, ite_self, if_neg (Nat.not_lt.mpr hle), hclashes, if_true]

theorem grow_of_missing
    {r : Reading} {climb : Climber} {fill : Filler} {depth least steps pos : Nat}
    {previous : Option Operation} {operand : Tree} {k : TokenKind} {op : Operation}
    (hkind : kindAt r.tokens pos = some k) (hbetween : k.between = some op)
    (hle : least ≤ op.priority) (hclashes : clashes previous op = false) :
    r.grow climb fill depth (pos + 1) least (steps + 1) previous operand pos =
      .failAfter operand (r.misplaced .missingOperand .expression pos) := by
  have hopens := TokenKind.opens_eq_none_of_between hbetween
  have hafter := TokenKind.after_eq_none_of_between hbetween
  rw [grow, if_neg (by omega), kind?_eq, hkind]
  simp only [hopens, hafter, hbetween, ite_self, if_neg (Nat.not_lt.mpr hle), hclashes, Nat.le_refl,
    if_true, if_false, Bool.false_eq_true]

theorem closeInserted_succ
    (r : Reading) (climb : Climber) (fill : Filler) (depth pos stop levels : Nat) (first : Bool)
    (operand : Tree) (next : Nat) :
    r.closeInserted climb fill depth pos stop (levels + 1) first operand next =
      match (if first then .ok (operand, next)
        else r.grow climb fill depth stop 0 (stop - next) none operand next) with
      | .ok (grown, last) =>
          if r.isInserted last .rparen then
            r.closeInserted climb fill depth pos stop levels false grown (last + 1)
          else if last < stop then .failAfter grown (r.surplus .grouping last)
          else .failAfter grown (r.misplaced .invalidToken .grouping pos)
      | .error failure => .error failure := by
  rw [closeInserted]
  generalize (if first then .ok (operand, next)
    else r.grow climb fill depth stop 0 (stop - next) none operand next) = extended
  cases extended <;> rfl

section Parameters

variable {r other : Reading} {early : ParseError → Prop} {offset bound : Nat}
variable (h : r.Beside other early offset bound)

include h

theorem Beside.kind?_eq
    {i : Nat} (hi : i < bound) : r.kind? (offset + i) = other.kind? i := by
  rw [kind?, kind?, h.window.getElem?_eq i hi]

theorem Beside.exists_kind
    {i : Nat} (hi : i < bound) :
    ∃ k, r.kind? (offset + i) = some k ∧ other.kind? i = some k := by
  obtain ⟨t, ht, ht'⟩ := h.window.exists_token hi
  exact ⟨t.kind, by rw [kind?, ht]; rfl, by rw [kind?, ht']; rfl⟩

theorem Beside.misplaced_eq
    {i : Nat} (hi : i < bound) (kind : Misplacement) (production : Production) :
    r.misplaced kind production (offset + i) = other.misplaced kind production i := by
  simp only [misplaced, ParseError.misplacedAt, ExpressionError.atIndex, h.window.spot_eq hi]

theorem Beside.surplus_eq
    {i : Nat} (hi : i < bound) (production : Production) :
    r.surplus production (offset + i) = other.surplus production i := by
  obtain ⟨k, hk, hk'⟩ := h.exists_kind hi
  simp only [surplus, hk, hk', h.misplaced_eq hi]

theorem Beside.lt_size
    {stop : Nat} (hstop : stop ≤ bound) {i : Nat} :
    (offset + i < offset + stop → offset + i < r.tokens.size) := by
  intro hi
  have := h.window.add_le_size (by omega : i + 1 ≤ bound) (by omega)
  omega

theorem Beside.halts_iff
    {stop : Nat} (hstop : stop ≤ bound) {least i : Nat} :
    Halts r.tokens (offset + stop) least (offset + i) ↔ Halts other.tokens stop least i := by
  unfold Halts
  rw [Nat.add_lt_add_iff_left]
  constructor
  · intro hhalts k hi hk
    exact hhalts k hi (by rwa [h.window.kindAt_eq (by omega)])
  · intro hhalts k hi hk
    exact hhalts k hi (by rwa [h.window.kindAt_eq (by omega)] at hk)

/-- One level deeper, both readings go on, both reach the limit, or the first one does. -/
theorem tracks_deeper
    {α β : Type} {place : β → α} {inner : Attempt α} {inner' : Attempt β} {i : Nat}
    (hi : i < bound) (depth : Nat) (hinner : Tracks early offset place inner inner') :
    Tracks early offset place (r.deeper depth (offset + i) inner)
      (other.deeper depth i inner') := by
  unfold deeper
  rcases h.limit with hlimit | ⟨hlimit, hearly⟩
  · rw [hlimit]
    split
    · exact tracks_fail (by rw [ParseError.tooDeepAt, ParseError.tooDeepAt, h.window.spot_eq hi])
    · exact hinner
  · split
    · exact tracks_early (hearly _) _
    · rw [if_neg (by omega)]
      exact hinner

variable {climb climb' : Climber} {fill fill' : Filler}

omit h in
theorem tracks_items
    {fillPart fillPart' : TokenRange → Attempt Tree} {parts : List TokenRange}
    (hfill : ∀ part ∈ parts,
      Tracks early offset (Tree.moved offset) (fillPart (part.moved offset)) (fillPart' part))
    (kind : NodeKind) (range : TokenRange) (done : List Tree) :
    Tracks early offset (Tree.moved offset)
      (items fillPart kind (range.moved offset) (done.map (Tree.moved offset))
        (parts.map (TokenRange.moved offset)))
      (items fillPart' kind range done parts) := by
  induction parts generalizing done with
  | nil => exact tracks_ok (Tree.moved_node offset kind range done).symm
  | cons part parts ih =>
      obtain ⟨hpart, hmore⟩ := List.forall_mem_cons.mp hfill
      rw [List.map_cons, items_cons, items_cons]
      have hafter := hpart.after (.node kind range done)
      rw [Tree.moved_node] at hafter
      refine hafter.bind fun item _ => ?_
      have hrest := ih hmore (done ++ [item])
      rwa [List.map_append, List.map_singleton] at hrest

theorem tracks_list
    (hfill : FillTracks early offset bound fill fill') {pos stop : Nat} (hpos : pos < stop)
    (hstop : stop ≤ bound) (depth : Nat) (b : Bracket) (kind : NodeKind)
    (production : Production) :
    Tracks early offset (movedFound offset)
      (r.list fill depth (offset + pos) (offset + stop) b kind production)
      (other.list fill' depth pos stop b kind production) := by
  have hscope := h.window.separated_eq ⟨pos, stop⟩ hpos hstop b .comma
  unfold list
  refine (tracks_ofScope hscope).bind fun separated hseparated => ?_
  obtain ⟨hwithin, -, hend⟩ := Separated.within_of_resolve (ofScope_eq_ok_iff.mp hseparated)
  refine (tracks_items (fun part hpart => ?_) kind separated.scope.range []).bind
    fun tree _ => tracks_ok rfl
  have hbounds := hwithin.parts part hpart
  dsimp only at hend
  exact hfill depth part production (by omega) (by omega)

theorem tracks_applied
    (hfill : FillTracks early offset bound fill fill') {pos stop : Nat} (hpos : pos < stop)
    (hstop : stop ≤ bound) (depth : Nat) (callee : Tree) (b : Bracket) :
    Tracks early offset (movedFound offset)
      (r.applied fill depth (callee.moved offset) (offset + pos) (offset + stop) b)
      (other.applied fill' depth callee pos stop b) := by
  unfold applied
  refine ((tracks_list h hfill hpos hstop depth b _ _).after callee).found
    fun arguments next _ => ?_
  exact tracks_ok (by simp [movedFound, TokenRange.moved])

theorem tracks_rightOperand
    (hclimb : ClimbTracks early offset bound climb climb') {pos stop : Nat} (hpos : pos + 1 < stop)
    (hstop : stop ≤ bound) (depth : Nat) (op : Operation) :
    Tracks early offset (movedFound offset)
      (r.rightOperand climb depth (offset + pos) (offset + stop) op)
      (other.rightOperand climb' depth pos stop op) := by
  unfold rightOperand
  split
  · exact tracks_deeper h (by omega) depth (hclimb _ _ _ _ hpos hstop)
  · exact hclimb _ _ _ _ hpos hstop

theorem tracks_grow
    (hclimb : ClimbTracks early offset bound climb climb')
    (hfill : FillTracks early offset bound fill fill') {stop : Nat} (hstop : stop ≤ bound)
    (depth least steps : Nat) (previous : Option Operation) (operand : Tree) (pos : Nat) :
    Tracks early offset (movedFound offset)
      (r.grow climb fill depth (offset + stop) least steps previous (operand.moved offset)
        (offset + pos))
      (other.grow climb' fill' depth stop least steps previous operand pos) := by
  induction steps generalizing previous operand pos with
  | zero => exact tracks_ok rfl
  | succ steps ih =>
      by_cases hhalts : Halts other.tokens stop least pos
      · rw [grow_of_halts (h.halts_iff hstop |>.mpr hhalts) (h.lt_size hstop),
          grow_of_halts hhalts fun hpos => (by have := h.window.le_size; omega)]
        exact tracks_ok rfl
      have hpos : pos < stop := Nat.lt_of_not_le fun hle => hhalts (halts_of_le hle)
      obtain ⟨k, hk, hk'⟩ := h.exists_kind (by omega : pos < bound)
      obtain ⟨-, hcases⟩ := cases_of_not_halts hk' hhalts
      have hmoved : offset + pos < offset + stop := by omega
      rcases hcases with ⟨b, hleast, rfl⟩ | ⟨op, hleast, hafter⟩ | ⟨op, hbetween, hle⟩
      · rw [grow_applied hmoved hk hleast, grow_applied hpos hk' hleast]
        exact (tracks_applied h hfill hpos hstop depth operand b).found
          fun grown next _ => ih previous grown next
      · rw [grow_after hmoved hk hafter hleast, grow_after hpos hk' hafter hleast]
        have hnext := ih previous (.node (.operation op) ⟨operand.range.start, pos + 1⟩ [operand])
          (pos + 1)
        simpa [TokenRange.moved, Nat.add_assoc] using hnext
      · cases hclashes : clashes previous op with
        | true =>
            rw [grow_of_clash hmoved hk hbetween hle hclashes,
              grow_of_clash hpos hk' hbetween hle hclashes]
            exact tracks_failAfter operand (h.misplaced_eq (by omega) _ _)
        | false =>
            by_cases hnext : pos + 1 < stop
            · rw [grow_between (by omega) hk hbetween hle hclashes,
                grow_between hnext hk' hbetween hle hclashes]
              refine ((tracks_rightOperand h hclimb hnext hstop depth op).after operand).found
                fun right next _ => ?_
              have hgrown := ih (some op) (.node (.operation op)
                ⟨operand.range.start, right.range.stop⟩ [operand, right]) next
              simpa [TokenRange.moved] using hgrown
            · obtain rfl : stop = pos + 1 := by omega
              rw [← Nat.add_assoc, grow_of_missing hk hbetween hle hclashes,
                grow_of_missing hk' hbetween hle hclashes]
              exact tracks_failAfter operand (h.misplaced_eq (by omega) _ _)

/-! ## Operands -/

theorem Beside.insertedRun_eq
    (stop steps pos : Nat) :
    r.insertedRun (offset + stop) steps (offset + pos) = other.insertedRun stop steps pos := by
  induction steps generalizing pos with
  | zero => rfl
  | succ steps ih =>
      simp only [insertedRun, Nat.add_lt_add_iff_left, h.isInserted_eq, Nat.add_assoc, ih]

theorem tracks_closeInserted
    (hclimb : ClimbTracks early offset bound climb climb')
    (hfill : FillTracks early offset bound fill fill') {pos stop : Nat} (hpos : pos < stop)
    (hstop : stop ≤ bound) (depth levels : Nat) (first : Bool) (operand : Tree) (next : Nat) :
    Tracks early offset (movedFound offset)
      (r.closeInserted climb fill depth (offset + pos) (offset + stop) levels first
        (operand.moved offset) (offset + next))
      (other.closeInserted climb' fill' depth pos stop levels first operand next) := by
  induction levels generalizing first operand next with
  | zero => exact tracks_ok rfl
  | succ levels ih =>
      have hextended : Tracks early offset (movedFound offset)
          (if first then .ok (operand.moved offset, offset + next)
            else r.grow climb fill depth (offset + stop) 0 (offset + stop - (offset + next)) none
              (operand.moved offset) (offset + next))
          (if first then .ok (operand, next)
            else other.grow climb' fill' depth stop 0 (stop - next) none operand next) := by
        split
        · exact tracks_ok rfl
        · rw [Nat.add_sub_add_left]
          exact tracks_grow h hclimb hfill hstop _ _ _ _ _ _
      rw [closeInserted_succ, closeInserted_succ]
      refine hextended.found fun grown last _ => ?_
      rw [h.isInserted_eq]
      split
      · exact ih false grown (last + 1)
      · by_cases hlast : last < stop
        · rw [if_pos (by omega), if_pos hlast]
          exact tracks_failAfter grown (h.surplus_eq (by omega) _)
        · rw [if_neg (by omega), if_neg hlast]
          exact tracks_failAfter grown (h.misplaced_eq (by omega) _ _)

theorem tracks_insertedGroups
    (hclimb : ClimbTracks early offset bound climb climb')
    (hfill : FillTracks early offset bound fill fill') {pos stop : Nat} (hpos : pos < stop)
    (hstop : stop ≤ bound) (depth : Nat) :
    Tracks early offset (movedFound offset)
      (r.insertedGroups climb fill depth (offset + pos) (offset + stop))
      (other.insertedGroups climb' fill' depth pos stop) := by
  unfold insertedGroups
  rw [Nat.add_sub_add_left, h.insertedRun_eq]
  dsimp only
  split
  · rw [if_pos (by omega)]
    exact tracks_fail (h.misplaced_eq (by omega) _ _)
  · rw [if_neg (by omega), Nat.add_assoc]
    refine (hclimb _ _ _ _ (by omega) hstop).found fun operand next _ => ?_
    exact tracks_closeInserted h hclimb hfill hpos hstop _ _ _ _ _

theorem tracks_subexpression
    (hfill : FillTracks early offset bound fill fill') {pos stop : Nat} (hpos : pos < stop)
    (hstop : stop ≤ bound) (depth : Nat) :
    Tracks early offset (movedFound offset)
      (r.subexpression fill depth (offset + pos) (offset + stop))
      (other.subexpression fill' depth pos stop) := by
  unfold subexpression
  refine (tracks_ofScope (h.window.matching_eq ⟨pos, stop⟩ hpos hstop .paren)).bind
    fun scope hscope => ?_
  have hbounds := Scope.bounds_of_matching (ofScope_eq_ok_iff.mp hscope)
  rw [Scope.interior_moved (by omega), TokenRange.isEmpty_moved]
  split
  · exact tracks_fail (h.misplaced_eq (by omega) _ _)
  · have hinner : Tracks early offset (Tree.moved offset)
        (fill depth (scope.interior.moved offset) .subexpression)
        (fill' depth scope.interior .subexpression) := by
      apply hfill
      · simp only [Scope.interior]
        omega
      · simp only [Scope.interior]
        omega
    exact hinner.bind fun inner _ => tracks_ok (by simp [movedFound])

/-- Only in the first place of the window is a token outside it looked at. -/
theorem Beside.noOperand_eq
    {pos : Nat} (hpos : pos < bound) {k : TokenKind} (hk : other.kind? pos = some k)
    (hbefore : k.before = none) : r.noOperand k (offset + pos) = other.noOperand k pos := by
  unfold noOperand
  rw [h.misplaced_eq hpos, h.misplaced_eq hpos]
  have hafter : (0 < offset + pos ∧ (r.kind? (offset + pos - 1)).any TokenKind.isOperator = true) ∧
        k.isOperator = true ↔
      (0 < pos ∧ (other.kind? (pos - 1)).any TokenKind.isOperator = true) ∧
        k.isOperator = true := by
    cases pos with
    | zero =>
        constructor
        · rintro ⟨⟨hoffset, hoperator⟩, hthis⟩
          have hfirst : r.kind? offset = some k := (h.kind?_eq hpos).trans hk
          have hnot := h.first k hoffset hoperator hfirst hbefore
          rw [hthis] at hnot
          cases hnot
        · rintro ⟨⟨hlt, -⟩, -⟩
          omega
    | succ before =>
        have heq := h.kind?_eq (by omega : before < bound)
        simp [← Nat.add_assoc, heq]
  simp only [hafter]

theorem tracks_primary
    (hclimb : ClimbTracks early offset bound climb climb')
    (hfill : FillTracks early offset bound fill fill') {pos stop : Nat} (hpos : pos < stop)
    (hstop : stop ≤ bound) (depth : Nat) {k : TokenKind} (hk : other.kind? pos = some k)
    (hbefore : k.before = none) :
    Tracks early offset (movedFound offset)
      (r.primary climb fill depth (offset + pos) (offset + stop) k)
      (other.primary climb' fill' depth pos stop k) := by
  unfold primary
  split
  · exact tracks_ok rfl
  · split
    · rw [h.isInserted_eq]
      split
      · exact tracks_insertedGroups h hclimb hfill hpos hstop depth
      · exact tracks_subexpression h hfill hpos hstop depth
    · exact tracks_list h hfill hpos hstop depth _ _ _
    · exact tracks_list h hfill hpos hstop depth _ _ _
    · exact tracks_fail (h.noOperand_eq (by omega) hk hbefore)

theorem tracks_prefixed
    (hclimb : ClimbTracks early offset bound climb climb')
    (hfill : FillTracks early offset bound fill fill') {pos stop : Nat} (hpos : pos < stop)
    (hstop : stop ≤ bound) (depth : Nat) :
    Tracks early offset (movedFound offset)
      (r.prefixed climb fill depth (offset + pos) (offset + stop))
      (other.prefixed climb' fill' depth pos stop) := by
  obtain ⟨k, hk, hk'⟩ := h.exists_kind (by omega : pos < bound)
  unfold prefixed
  rw [hk, hk']
  cases hbefore : k.before with
  | none => simpa [hbefore] using tracks_primary h hclimb hfill hpos hstop depth hk' hbefore
  | some op =>
      simp only [hbefore]
      by_cases hnext : stop ≤ pos + 1
      · rw [if_pos (by omega), if_pos hnext]
        exact tracks_fail (h.misplaced_eq (by omega) _ _)
      · rw [if_neg (by omega), if_neg hnext]
        have hoperand := tracks_deeper h (by omega : pos < bound) depth
          (hclimb (depth + 1) (pos + 1) stop Operation.beforePriority (by omega) hstop)
        refine hoperand.found fun operand next _ => ?_
        exact tracks_ok (by simp [movedFound, TokenRange.moved])

theorem climbTracks_climbWith
    (hclimb : ClimbTracks early offset bound climb climb')
    (hfill : FillTracks early offset bound fill fill') :
    ClimbTracks early offset bound (r.climbWith climb fill) (other.climbWith climb' fill') := by
  intro depth pos stop least hpos hstop
  refine (tracks_prefixed h hclimb hfill hpos hstop depth).found fun operand next _ => ?_
  rw [Nat.add_sub_add_left]
  exact tracks_grow h hclimb hfill hstop _ _ _ _ _ _

/-! ## Ranges -/

/-- The parentheses around a range are dropped in the window as in the excerpt, and what is left
starts in the window. -/
theorem Beside.dropOuterParens_eq
    (production : Production) (steps : Nat) {range : TokenRange} (hstart : range.start < bound)
    (hstop : range.stop ≤ bound) :
    r.dropOuterParens production steps (range.moved offset) =
        (other.dropOuterParens production steps range).map (TokenRange.moved offset) ∧
      ∀ inside, other.dropOuterParens production steps range = .ok inside →
        inside.start < bound ∧ inside.stop ≤ bound := by
  induction steps generalizing range with
  | zero =>
      refine ⟨rfl, ?_⟩
      rintro inside ⟨⟩
      exact ⟨hstart, hstop⟩
  | succ steps ih =>
      rw [dropOuterParens, dropOuterParens, TokenRange.isEmpty_moved, TokenRange.start_moved,
        h.kind?_eq hstart]
      split
      · refine ⟨rfl, ?_⟩
        rintro inside ⟨⟩
        exact ⟨hstart, hstop⟩
      · rename_i hfirst
        have hnonempty : range.start < range.stop := by
          have hempty := (not_or.mp hfirst).1
          simpa [TokenRange.isEmpty] using hempty
        rw [h.window.matching_eq range hnonempty hstop]
        cases hscope : Scope.matching other.tokens range .paren with
        | error e => exact ⟨rfl, by rintro inside ⟨⟩⟩
        | ok scope =>
            have hbounds := Scope.bounds_of_matching hscope
            simp only [Except.map, liftScope, bind, Except.bind, Scope.stop_moved,
              TokenRange.stop_moved, ne_eq, Nat.add_left_cancel_iff,
              Scope.interior_moved (by omega : 0 < scope.stop), TokenRange.isEmpty_moved]
            split
            · refine ⟨rfl, ?_⟩
              rintro inside ⟨⟩
              exact ⟨hstart, hstop⟩
            split
            · refine ⟨?_, by rintro inside ⟨⟩⟩
              rw [Scope.start_moved, h.misplaced_eq (by omega)]
            · exact ih (by simp only [Scope.interior]; omega) (by simp only [Scope.interior]; omega)

theorem fillTracks_fillWith
    (hclimb : ClimbTracks early offset bound climb climb') :
    FillTracks early offset bound (r.fillWith climb) (other.fillWith climb') := by
  intro depth range production hstart hstop
  obtain ⟨hdrop, hbounds⟩ := h.dropOuterParens_eq production range.length hstart hstop
  refine tracks_deeper h hstart depth ?_
  have hlift : Tracks early offset (TokenRange.moved offset)
      (lift (r.dropOuterParens production (range.moved offset).length (range.moved offset)))
      (lift (other.dropOuterParens production range.length range)) := by
    rw [TokenRange.length_moved, hdrop]
    cases other.dropOuterParens production range.length range with
    | ok inside => exact tracks_ok rfl
    | error e => exact tracks_fail rfl
  refine hlift.bind fun inside hinside => ?_
  obtain ⟨hinsideStart, hinsideStop⟩ := hbounds inside (lift_eq_ok_iff.mp hinside)
  rw [TokenRange.isEmpty_moved]
  split
  · exact tracks_fail (h.misplaced_eq hinsideStart _ _)
  · rename_i hnonempty
    simp only [TokenRange.isEmpty, decide_eq_true_eq, Nat.not_le] at hnonempty
    refine (hclimb (depth + 1) inside.start inside.stop 0 hnonempty hinsideStop).bind
      fun found _ => ?_
    obtain ⟨tree, next⟩ := found
    simp only [movedFound, TokenRange.stop_moved, Nat.add_lt_add_iff_left]
    split
    · exact tracks_failAfter tree (h.surplus_eq (by omega) _)
    · exact tracks_ok rfl

/-- Reading goes side by side, for operands and ranges at once. -/
theorem tracks_climb_and_fill
    (fuel fuel' : Nat) (hfuel : fuel = fuel' ∨ fuel ≤ fuel' ∧ early (.fault .exhausted)) :
    ClimbTracks early offset bound (r.climb fuel) (other.climb fuel') ∧
      FillTracks early offset bound (r.fill fuel) (other.fill fuel') := by
  induction fuel generalizing fuel' with
  | zero =>
      rcases hfuel with rfl | ⟨-, hearly⟩
      · refine ⟨?_, ?_⟩
        · intro depth pos stop least _ _
          rw [climb, climb]
          exact tracks_fail rfl
        · intro depth range production _ _
          rw [fill, fill]
          exact tracks_fail rfl
      · refine ⟨?_, ?_⟩
        · intro depth pos stop least _ _
          rw [climb]
          exact tracks_early hearly _
        · intro depth range production _ _
          rw [fill]
          exact tracks_early hearly _
  | succ fuel ih =>
      obtain ⟨fuel', rfl⟩ : ∃ less, fuel' = less + 1 := ⟨fuel' - 1, by omega⟩
      obtain ⟨hclimb, hfill⟩ := ih fuel' (by simpa using hfuel)
      constructor
      · intro depth pos stop least
        rw [climb, climb]
        exact climbTracks_climbWith h hclimb hfill depth pos stop least
      · intro depth range production
        rw [fill, fill]
        exact fillTracks_fillWith h hclimb depth range production

/-- An expression that fills a range of the window is read side by side. -/
theorem tracks_whole
    (hexhausted : r.limit = other.limit ∨ early (.fault .exhausted)) {range : TokenRange}
    (hstart : range.start < bound) (hstop : range.stop ≤ bound) (production : Production) :
    Tracks early offset (Tree.moved offset) (r.whole (range.moved offset) production)
      (other.whole range production) := by
  have hfuel : recursionBound r.limit = recursionBound other.limit ∨
      recursionBound r.limit ≤ recursionBound other.limit ∧ early (.fault .exhausted) := by
    rcases hexhausted with heq | hearly
    · exact .inl (by rw [heq])
    · refine .inr ⟨?_, hearly⟩
      have hlimit := h.limit
      simp only [recursionBound]
      omega
  exact (tracks_climb_and_fill h _ _ hfuel).2 0 range production hstart hstop

end Parameters

/-- Nothing is found in an empty range. -/
theorem whole_of_isEmpty
    (r : Reading) {range : TokenRange} (h : range.isEmpty = true) (production : Production) :
    r.whole range production =
      .fail (if r.limit = 0 then .tooDeepAt r.tokens r.limit range.start
        else r.misplaced .emptyOperand production range.start) := by
  have hlength := (range.isEmpty_iff_length_eq_zero).mp h
  have hfuel : recursionBound r.limit = 64 * r.limit + 63 + 1 := by
    simp only [recursionBound]
    omega
  rw [whole, hfuel, fill, fillWith, deeper, hlength]
  simp only [Nat.le_zero]
  split
  · rfl
  · simp [dropOuterParens, lift, h, bind, Except.bind]

end Reading

end ExprFront
