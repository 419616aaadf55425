import ExprFront.Proofs.Reading.Parallel
import ExprFront.Proofs.Shallow
import Mathlib.Data.Nat.Count

/-!
# How deep reading nests

Reading goes one level deeper at an operator or into a bracket group, and what
is read there lacks the operator or the brackets. Inserted parentheses cost no
level, so the levels below an operand are at most as many as the written tokens
that are left; a limit with a level for each written token and one for the whole
expression is never reached.

A parenthesis that follows an operand costs a level even if it was inserted.
`Reading.held` tells from the tokens before an index whether an operand has just
ended there, and in a steady reading no inserted parenthesis opens in such a
place.
-/

namespace ExprFront

open Attempt

namespace Reading

/-- Whether the token at an index was written, not inserted. -/
def isWritten (r : Reading) (index : Nat) : Bool :=
  !r.isInserted index .lparen && !r.isInserted index .rparen

/-- The number of written tokens before an index. -/
def written (r : Reading) (index : Nat) : Nat := Nat.count (fun i => r.isWritten i = true) index

/-- Whether an operand ends directly before an index. -/
def held (r : Reading) : (index : Nat) → Bool
  | 0 => false
  | index + 1 =>
      (r.kind? index).any fun k =>
        k.isOperand || k.closes.isSome || (r.held index && k.after.isSome)

/-- Inserted tokens are parentheses, and none opens directly after an operand. -/
structure Steady (r : Reading) : Prop where
  kind_of_inserted : ∀ index mark, r.isInserted index mark = true →
    r.kind? index = some (.punctuation mark)
  held_of_inserted : ∀ index, r.isInserted index .lparen = true → r.held index = false

/-- What is found ends with an operand and spans a written token. -/
def Spans (r : Reading) (pos : Nat) (found : Tree × Nat) : Prop :=
  r.written pos < r.written found.2 ∧ r.held found.2 = true

/-- Operands are read within the limit if it has a level for each written token that is left. -/
def ClimbShallow (r : Reading) (climb : Climber) : Prop :=
  ∀ depth pos stop least, pos < stop → depth + r.written stop ≤ r.limit + r.written pos →
    (climb depth pos stop least).Reaches (r.Spans pos)

/-- Ranges are filled within the limit if it has one level more than for the written tokens. -/
def FillShallow (r : Reading) (fill : Filler) : Prop :=
  ∀ depth range production, range.start ≤ range.stop →
    depth + 1 + r.written range.stop ≤ r.limit + r.written range.start →
    (fill depth range production).Reaches (fun _ => True)

/-! ## Written tokens -/

variable {r : Reading}

theorem written_mono
    {first last : Nat} (h : first ≤ last) : r.written first ≤ r.written last :=
  Nat.count_monotone _ h

theorem written_succ
    {index : Nat} (h : r.isWritten index = true) : r.written (index + 1) = r.written index + 1 := by
  rw [written, Nat.count_succ, if_pos h, written]

theorem Steady.isWritten_of_kind
    (h : r.Steady) {index : Nat} {k : TokenKind} (hk : r.kind? index = some k)
    (hlparen : k ≠ .punctuation .lparen) (hrparen : k ≠ .punctuation .rparen) :
    r.isWritten index = true := by
  have hnot : ∀ mark, k ≠ .punctuation mark → r.isInserted index mark = false := by
    intro mark hne
    by_contra hinserted
    have hmark := h.kind_of_inserted index mark (by simpa using hinserted)
    exact hne (Option.some.inj (hk.symm.trans hmark))
  simp [isWritten, hnot _ hlparen, hnot _ hrparen]

/-- An operator is a written token. -/
theorem Steady.isWritten_of_operator
    (h : r.Steady) {index : Nat} {k : TokenKind} (hk : r.kind? index = some k)
    (hoperator : k.isOperator = true) : r.isWritten index = true := by
  refine h.isWritten_of_kind hk ?_ ?_
  · rintro rfl
    cases hoperator
  · rintro rfl
    cases hoperator

/-- A bracket that opens and is not an inserted parenthesis is a written token. -/
theorem Steady.isWritten_of_opens
    (h : r.Steady) {index : Nat} {k : TokenKind} {b : Bracket} (hk : r.kind? index = some k)
    (hopens : k.opens = some b) (hinserted : r.isInserted index .lparen = false) :
    r.isWritten index = true := by
  have hrparen : r.isInserted index .rparen = false := by
    by_contra hinserted
    have hmark := h.kind_of_inserted index .rparen (by simpa using hinserted)
    cases hk.symm.trans hmark
    cases hopens
  simp [isWritten, hinserted, hrparen]

theorem held_succ_of_closes
    {index : Nat} {k : TokenKind} {b : Bracket} (hk : r.kind? index = some k)
    (hcloses : k.closes = some b) : r.held (index + 1) = true := by
  simp [held, hk, hcloses]

theorem held_succ_of_isOperand
    {index : Nat} {k : TokenKind} (hk : r.kind? index = some k) (hoperand : k.isOperand = true) :
    r.held (index + 1) = true := by
  simp [held, hk, hoperand]

theorem held_succ_of_after
    {index : Nat} {k : TokenKind} {op : Operation} (hk : r.kind? index = some k)
    (hheld : r.held index = true) (hafter : k.after = some op) : r.held (index + 1) = true := by
  simp [held, hk, hheld, hafter]

/-- A bracket scope ends with an operand. -/
theorem held_of_matching
    {range : TokenRange} {b : Bracket} {scope : Scope}
    (h : Scope.matching r.tokens range b = .ok scope) : r.held scope.stop = true := by
  have hbounds := Scope.bounds_of_matching h
  obtain ⟨-, hclosing⟩ := Scope.marks_of_matching h
  have hheld := held_succ_of_closes hclosing (TokenKind.closes_eq_some_iff.mpr rfl)
  rwa [Nat.sub_add_cancel (by omega)] at hheld

/-! ## Bracket groups -/

section Parameters

variable {climb : Climber} {fill : Filler} {depth pos stop least : Nat}

theorem isShallow_surplus
    (production : Production) (index : Nat) : (r.surplus production index).IsShallow := by
  unfold surplus
  split
  · exact isShallow_fault _
  split
  · exact isShallow_misplacedAt _ _ _ _
  split
  · exact isShallow_misplacedAt _ _ _ _
  · exact isShallow_misplacedAt _ _ _ _

theorem reaches_deeper
    {α : Type} {condition : α → Prop} {inner : Attempt α} (hdepth : depth < r.limit) (index : Nat)
    (h : inner.Reaches condition) : (r.deeper depth index inner).Reaches condition := by
  rwa [deeper, if_neg (by omega)]

theorem reaches_items
    {fillPart : TokenRange → Attempt Tree} {parts : List TokenRange}
    (hparts : ∀ part ∈ parts, (fillPart part).Reaches (fun _ => True)) (kind : NodeKind)
    (range : TokenRange) (done : List Tree) :
    (items fillPart kind range done parts).Reaches (fun _ => True) := by
  induction parts generalizing done with
  | nil => trivial
  | cons part parts ih =>
      obtain ⟨hpart, hmore⟩ := List.forall_mem_cons.mp hparts
      rw [items_cons]
      exact (hpart.after _).bind fun item _ _ => ih hmore (done ++ [item])

/-- The parts of a bracket group lack its opening bracket. -/
theorem reaches_list
    (hfill : FillShallow r fill) (hwritten : r.isWritten pos = true)
    (hroom : depth + r.written stop ≤ r.limit + r.written pos) (b : Bracket) (kind : NodeKind)
    (production : Production) :
    (r.list fill depth pos stop b kind production).Reaches (r.Spans pos) := by
  have hsucc := written_succ hwritten
  unfold list
  refine (reaches_ofScope _).bind fun separated hresolve _ => ?_
  obtain ⟨⟨hlength, -, hparts⟩, hstart, hstop⟩ := Separated.within_of_resolve hresolve
  dsimp only at hstart hstop
  refine (reaches_items (fun part hpart => ?_) kind _ []).bind fun tree _ _ => ?_
  · obtain ⟨hfirst, horder, hlast⟩ := hparts part hpart
    have hlow : r.written (pos + 1) ≤ r.written part.start := written_mono (by omega)
    have hhigh : r.written part.stop ≤ r.written stop := written_mono (by omega)
    exact hfill depth part production horder (by omega)
  · have hlow : r.written (pos + 1) ≤ r.written separated.scope.stop := written_mono (by omega)
    exact ⟨by dsimp only; omega, held_of_matching (Separated.matching_of_resolve hresolve)⟩

theorem reaches_applied
    (hfill : FillShallow r fill) (hwritten : r.isWritten pos = true)
    (hroom : depth + r.written stop ≤ r.limit + r.written pos) (callee : Tree) (b : Bracket) :
    (r.applied fill depth callee pos stop b).Reaches (r.Spans pos) := by
  unfold applied
  exact ((reaches_list hfill hwritten hroom b _ _).after callee).found
    fun arguments next hspans => hspans

theorem reaches_subexpression
    (hfill : FillShallow r fill) (hwritten : r.isWritten pos = true)
    (hroom : depth + r.written stop ≤ r.limit + r.written pos) :
    (r.subexpression fill depth pos stop).Reaches (r.Spans pos) := by
  have hsucc := written_succ hwritten
  unfold subexpression
  refine (reaches_ofScope _).bind fun scope hscope _ => ?_
  have hbounds := Scope.bounds_of_matching hscope
  have hlow : r.written (pos + 1) ≤ r.written scope.stop := written_mono (by omega)
  split
  · exact isShallow_misplacedAt _ _ _ _
  · have hhigh : r.written (scope.stop - 1) ≤ r.written stop := written_mono (by omega)
    refine Settles.bind (hfill depth scope.interior .subexpression ?_ ?_) fun inner _ _ => ?_
    · simp only [Scope.interior]
      omega
    · simp only [Scope.interior, hbounds.1]
      omega
    · exact ⟨by dsimp only; omega, held_of_matching hscope⟩

/-! ## Operands -/

theorem reaches_rightOperand
    (hclimb : ClimbShallow r climb) (hwritten : r.isWritten pos = true) (hpos : pos + 1 < stop)
    (hroom : depth + r.written stop ≤ r.limit + r.written pos) (op : Operation) :
    (r.rightOperand climb depth pos stop op).Reaches (r.Spans (pos + 1)) := by
  have hsucc := written_succ hwritten
  have hstop : r.written (pos + 1) ≤ r.written stop := written_mono (by omega)
  unfold rightOperand
  split
  · exact reaches_deeper (by omega) _ (hclimb _ _ _ _ hpos (by omega))
  · exact hclimb _ _ _ _ hpos (by omega)

theorem reaches_grow
    (h : r.Steady) (hclimb : ClimbShallow r climb) (hfill : FillShallow r fill) (steps : Nat)
    (previous : Option Operation) (operand : Tree) (pos : Nat) (hheld : r.held pos = true)
    (hroom : depth + r.written stop ≤ r.limit + r.written pos) :
    (r.grow climb fill depth stop least steps previous operand pos).Reaches
      (fun found => r.written pos ≤ r.written found.2 ∧ r.held found.2 = true) := by
  induction steps generalizing previous operand pos with
  | zero => exact ⟨Nat.le_refl _, hheld⟩
  | succ steps ih =>
      cases hk : r.kind? pos with
      | none =>
          rw [grow, hk]
          split
          · exact ⟨Nat.le_refl _, hheld⟩
          · exact isShallow_fault _
      | some k =>
          by_cases hhalts : Halts r.tokens stop least pos
          · rw [grow_of_halts hhalts fun _ => lt_size_of_kindAt hk]
            exact ⟨Nat.le_refl _, hheld⟩
          obtain ⟨hpos, hcases⟩ := cases_of_not_halts hk hhalts
          rcases hcases with ⟨b, hleast, rfl⟩ | ⟨op, hleast, hafter⟩ | ⟨op, hbetween, hle⟩
          -- A group after an operand costs a level, which its opening mark pays for if it was
          -- written; an inserted one cannot stand here.
          · have hinserted : r.isInserted pos .lparen = false := by
              by_contra hinserted
              have hnot := h.held_of_inserted pos (by simpa using hinserted)
              rw [hheld] at hnot
              cases hnot
            have hwritten := h.isWritten_of_opens hk (TokenKind.opens_eq_some_iff.mpr rfl) hinserted
            rw [grow_applied hpos hk hleast]
            refine (reaches_applied hfill hwritten hroom operand b).found
              fun grown next hspans => ?_
            obtain ⟨hlt, hnext⟩ := hspans
            dsimp only at hlt
            refine (ih previous grown next hnext (by omega)).mono fun found hfound => ?_
            exact ⟨by omega, hfound.2⟩
          · have hsucc : r.written pos ≤ r.written (pos + 1) := written_mono (Nat.le_succ _)
            rw [grow_after hpos hk hafter hleast]
            refine (ih previous _ (pos + 1) (held_succ_of_after hk hheld hafter) (by omega)).mono
              fun found hfound => ?_
            exact ⟨by omega, hfound.2⟩
          · obtain ⟨o, rfl, -⟩ := TokenKind.exists_operator_of_between hbetween
            have hwritten := h.isWritten_of_operator hk rfl
            have hsucc := written_succ hwritten
            cases hclashes : clashes previous op with
            | true =>
                rw [grow_of_clash hpos hk hbetween hle hclashes]
                exact isShallow_misplacedAt _ _ _ _
            | false =>
                by_cases hnext : pos + 1 < stop
                · rw [grow_between hnext hk hbetween hle hclashes]
                  refine ((reaches_rightOperand hclimb hwritten hnext hroom op).after
                    operand).found fun right next hspans => ?_
                  obtain ⟨hlt, hnext⟩ := hspans
                  dsimp only at hlt
                  refine (ih (some op) _ next hnext (by omega)).mono fun found hfound => ?_
                  exact ⟨by omega, hfound.2⟩
                · obtain rfl : stop = pos + 1 := by omega
                  rw [grow_of_missing hk hbetween hle hclashes]
                  exact isShallow_misplacedAt _ _ _ _

/-- Inserted groups are closed within the limit; each ends with an operand. -/
theorem reaches_closeInserted
    (h : r.Steady) (hclimb : ClimbShallow r climb) (hfill : FillShallow r fill) (levels : Nat)
    (first : Bool) (operand : Tree) (next : Nat) (hheld : r.held next = true)
    (hroom : depth + r.written stop ≤ r.limit + r.written next) :
    (r.closeInserted climb fill depth pos stop levels first operand next).Reaches
      (fun found => r.written next ≤ r.written found.2 ∧ r.held found.2 = true) := by
  induction levels generalizing first operand next with
  | zero => exact ⟨Nat.le_refl _, hheld⟩
  | succ levels ih =>
      have hextended : Reaches
          (fun found => r.written next ≤ r.written found.2 ∧ r.held found.2 = true)
          (if first then .ok (operand, next)
            else r.grow climb fill depth stop 0 (stop - next) none operand next) := by
        split
        · exact ⟨Nat.le_refl _, hheld⟩
        · exact reaches_grow h hclimb hfill _ _ _ _ hheld hroom
      rw [closeInserted_succ]
      refine hextended.found fun grown last hfound => ?_
      obtain ⟨hle, -⟩ := hfound
      dsimp only at hle
      split
      · rename_i hinserted
        have hclosing := held_succ_of_closes (h.kind_of_inserted last .rparen hinserted) rfl
        have hsucc : r.written last ≤ r.written (last + 1) := written_mono (Nat.le_succ _)
        refine (ih false grown (last + 1) hclosing (by omega)).mono fun found hfound => ?_
        exact ⟨by omega, hfound.2⟩
      split
      · exact isShallow_surplus _ _
      · exact isShallow_misplacedAt _ _ _ _

theorem reaches_insertedGroups
    (h : r.Steady) (hclimb : ClimbShallow r climb) (hfill : FillShallow r fill)
    (hroom : depth + r.written stop ≤ r.limit + r.written pos) :
    (r.insertedGroups climb fill depth pos stop).Reaches (r.Spans pos) := by
  unfold insertedGroups
  dsimp only
  split
  · exact isShallow_misplacedAt _ _ _ _
  · have hlow : r.written pos ≤ r.written (pos + r.insertedRun stop (stop - pos) pos) :=
      written_mono (Nat.le_add_right _ _)
    refine (hclimb _ _ _ _ (by omega) (by omega)).found fun operand next hspans => ?_
    obtain ⟨hlt, hheld⟩ := hspans
    dsimp only at hlt
    refine (reaches_closeInserted h hclimb hfill _ true operand next hheld (by omega)).mono
      fun found hfound => ?_
    exact ⟨by omega, hfound.2⟩

theorem reaches_primary
    (h : r.Steady) (hclimb : ClimbShallow r climb) (hfill : FillShallow r fill) {k : TokenKind}
    (hk : r.kind? pos = some k) (hroom : depth + r.written stop ≤ r.limit + r.written pos) :
    (r.primary climb fill depth pos stop k).Reaches (r.Spans pos) := by
  unfold primary
  split
  · rename_i leaf hleaf
    have hoperand := NodeKind.isOperand_of_ofToken? hleaf
    have hwritten : r.isWritten pos = true := by
      refine h.isWritten_of_kind hk ?_ ?_
      · rintro rfl
        cases hoperand
      · rintro rfl
        cases hoperand
    have hsucc := written_succ hwritten
    exact ⟨by dsimp only; omega, held_succ_of_isOperand hk hoperand⟩
  · split
    · rename_i hopens
      split
      · exact reaches_insertedGroups h hclimb hfill hroom
      · rename_i hinserted
        have hwritten := h.isWritten_of_opens hk hopens (by simpa using hinserted)
        exact reaches_subexpression hfill hwritten hroom
    · rename_i hopens
      obtain rfl := TokenKind.opens_eq_some_iff.mp hopens
      exact reaches_list hfill (h.isWritten_of_kind hk (by decide) (by decide)) hroom _ _ _
    · rename_i hopens
      obtain rfl := TokenKind.opens_eq_some_iff.mp hopens
      exact reaches_list hfill (h.isWritten_of_kind hk (by decide) (by decide)) hroom _ _ _
    · refine reaches_fail ?_
      unfold noOperand
      dsimp only
      split
      · exact isShallow_misplacedAt _ _ _ _
      · exact isShallow_misplacedAt _ _ _ _

theorem reaches_prefixed
    (h : r.Steady) (hclimb : ClimbShallow r climb) (hfill : FillShallow r fill) (hpos : pos < stop)
    (hroom : depth + r.written stop ≤ r.limit + r.written pos) :
    (r.prefixed climb fill depth pos stop).Reaches (r.Spans pos) := by
  unfold prefixed
  split
  · exact isShallow_fault _
  · rename_i k hk
    split
    · exact reaches_primary h hclimb hfill hk hroom
    · rename_i op hbefore
      obtain ⟨o, rfl, -⟩ := TokenKind.exists_operator_of_before hbefore
      have hsucc := written_succ (h.isWritten_of_operator hk rfl)
      have hstop : r.written (pos + 1) ≤ r.written stop := written_mono hpos
      split
      · exact isShallow_misplacedAt _ _ _ _
      · have hoperand := reaches_deeper (by omega : depth < r.limit) pos
          (hclimb (depth + 1) (pos + 1) stop Operation.beforePriority (by omega) (by omega))
        refine hoperand.found fun operand next hspans => ?_
        obtain ⟨hlt, hheld⟩ := hspans
        exact ⟨by dsimp only at hlt ⊢; omega, hheld⟩

theorem climbShallow_climbWith
    (h : r.Steady) (hclimb : ClimbShallow r climb) (hfill : FillShallow r fill) :
    ClimbShallow r (r.climbWith climb fill) := by
  intro depth pos stop least hpos hroom
  refine (reaches_prefixed h hclimb hfill hpos hroom).found fun operand next hspans => ?_
  obtain ⟨hlt, hheld⟩ := hspans
  dsimp only at hlt
  refine (reaches_grow h hclimb hfill _ none operand next hheld (by omega)).mono
    fun found hfound => ?_
  exact ⟨by omega, hfound.2⟩

/-! ## Ranges -/

/-- The parentheses around a range cost no level, and what they enclose lies within it. -/
theorem settles_dropOuterParens
    (production : Production) (steps : Nat) (range : TokenRange) :
    Settles ParseError.IsShallow
      (fun inside => range.start ≤ inside.start ∧ inside.stop ≤ range.stop)
      (r.dropOuterParens production steps range) := by
  induction steps generalizing range with
  | zero => exact ⟨Nat.le_refl _, Nat.le_refl _⟩
  | succ steps ih =>
      unfold dropOuterParens
      split
      · exact ⟨Nat.le_refl _, Nat.le_refl _⟩
      · refine (shallow_liftScope _).bind fun scope hscope _ => ?_
        obtain ⟨hstart, -, hstop⟩ := Scope.bounds_of_matching hscope
        split
        · exact ⟨Nat.le_refl _, Nat.le_refl _⟩
        split
        · exact isShallow_misplacedAt _ _ _ _
        · refine (ih scope.interior).mono fun inside hinside => ?_
          simp only [Scope.interior] at hinside
          omega

theorem fillShallow_fillWith
    (hclimb : ClimbShallow r climb) : FillShallow r (r.fillWith climb) := by
  intro depth range production horder hroom
  have hstop : r.written range.start ≤ r.written range.stop := written_mono horder
  refine reaches_deeper (by omega) _ ?_
  refine (reaches_lift (settles_dropOuterParens production range.length range)).bind
    fun inside hinside _ => ?_
  split
  · exact isShallow_misplacedAt _ _ _ _
  · rename_i hnonempty
    simp only [TokenRange.isEmpty, decide_eq_true_eq, Nat.not_le] at hnonempty
    have hlow : r.written range.start ≤ r.written inside.start := written_mono hinside.1
    have hhigh : r.written inside.stop ≤ r.written range.stop := written_mono hinside.2
    refine (hclimb (depth + 1) _ _ 0 hnonempty (by omega)).bind fun found _ _ => ?_
    obtain ⟨tree, next⟩ := found
    dsimp only
    split
    · exact isShallow_surplus _ _
    · trivial

end Parameters

/-! ## Whole expressions -/

/-- Reading within the limit, with any bound on the recursion. -/
theorem shallow_climb_and_fill
    (h : r.Steady) (fuel : Nat) : ClimbShallow r (r.climb fuel) ∧ FillShallow r (r.fill fuel) := by
  induction fuel with
  | zero =>
      constructor
      · intro depth pos stop least _ _
        exact isShallow_fault _
      · intro depth range production _ _
        exact isShallow_fault _
  | succ fuel ih =>
      constructor
      · intro depth pos stop least hpos hroom
        rw [climb]
        exact climbShallow_climbWith h ih.1 ih.2 depth pos stop least hpos hroom
      · intro depth range production horder hroom
        rw [fill]
        exact fillShallow_fillWith ih.1 depth range production horder hroom

/-- A limit with a level for each written token of a range and one for the range itself is never
reached. -/
theorem reaches_whole
    (h : r.Steady) {range : TokenRange} (horder : range.start ≤ range.stop)
    (hlimit : r.written range.stop + 1 ≤ r.limit + r.written range.start)
    (production : Production) : (r.whole range production).Reaches (fun _ => True) :=
  (shallow_climb_and_fill h _).2 0 range production horder (by omega)

/-- Nothing is inserted into tokens as they were written. -/
theorem steady_plain
    (tokens : Array Token) (limit : Nat) : (plain tokens limit).Steady where
  kind_of_inserted _ _ h := by cases h
  held_of_inserted _ h := by cases h

theorem written_plain
    (tokens : Array Token) (limit index : Nat) : (plain tokens limit).written index = index := by
  induction index with
  | zero => rfl
  | succ index ih =>
      rw [written_succ rfl, ih]

theorem reaches_whole_plain
    (tokens : Array Token) {range : TokenRange} {limit : Nat} (horder : range.start ≤ range.stop)
    (hlimit : range.length + 1 ≤ limit) (production : Production) :
    ((plain tokens limit).whole range production).Reaches (fun _ => True) := by
  apply reaches_whole (steady_plain tokens limit) horder
  rw [written_plain, written_plain]
  simp only [plain]
  simp only [TokenRange.length] at hlimit
  omega

end Reading

end ExprFront
