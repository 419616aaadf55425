import ExprFront.Proofs.Grouping.Phrased
import ExprFront.Proofs.Grouping.Wrapped
import ExprFront.Proofs.Reading.Shallow

/-!
# Grouped tokens are steady

Grouping puts a parenthesis before an operand, never directly after one, and it
copies each token once. So grouped tokens have as many written tokens as the
range that they come from, and a limit that is enough for the range is enough
for the grouped tokens, which are longer.
-/

namespace ExprFront

open Grouping

namespace Reading

/-- Between two indices no inserted parenthesis opens directly after an operand, and at most so
many tokens are written. -/
structure Calm (r : Reading) (start stop count : Nat) : Prop where
  held_of_inserted : ∀ index, start ≤ index → index < stop →
    r.isInserted index .lparen = true → r.held index = false
  written_le : r.written stop ≤ r.written start + count

variable {r : Reading} {start middle stop count more : Nat}

theorem calm_self
    (r : Reading) (start : Nat) : r.Calm start start 0 :=
  ⟨fun _ hlow hhigh => by omega, Nat.le_refl _⟩

theorem Calm.trans
    (h : r.Calm start middle count) (hmore : r.Calm middle stop more) :
    r.Calm start stop (count + more) where
  held_of_inserted index hlow hhigh hinserted := by
    by_cases hindex : index < middle
    · exact h.held_of_inserted index hlow hindex hinserted
    · exact hmore.held_of_inserted index (by omega) hhigh hinserted
  written_le := by
    have hfirst := h.written_le
    have hlast := hmore.written_le
    omega

theorem Calm.of_eq
    (h : r.Calm start stop count) {stop' count' : Nat} (hstop : stop' = stop)
    (hcount : count' = count) : r.Calm start stop' count' := by
  rwa [hstop, hcount]

/-- A written token. -/
theorem calm_of_not_inserted
    (h : r.isInserted start .lparen = false) : r.Calm start (start + 1) 1 where
  held_of_inserted index hlow hhigh hinserted := by
    obtain rfl : index = start := by omega
    rw [h] at hinserted
    cases hinserted
  written_le := by
    rw [written, written, Nat.count_succ]
    split <;> omega

theorem written_succ_of_inserted
    {mark : Punctuation} (hmark : mark = .lparen ∨ mark = .rparen)
    (h : r.isInserted start mark = true) : r.written (start + 1) = r.written start := by
  have hnot : r.isWritten start ≠ true := by
    rcases hmark with rfl | rfl <;> simp [isWritten, h]
  rw [written, Nat.count_succ, if_neg hnot]
  rfl

/-- An inserted parenthesis that opens where no operand ends. -/
theorem calm_of_inserted_lparen
    (hheld : r.held start = false) (h : r.isInserted start .lparen = true) :
    r.Calm start (start + 1) 0 where
  held_of_inserted index hlow hhigh _ := by
    obtain rfl : index = start := by omega
    exact hheld
  written_le := by rw [written_succ_of_inserted (.inl rfl) h, Nat.add_zero]

/-- An inserted parenthesis that closes. -/
theorem calm_of_inserted_rparen
    (hkind : r.kind? start = some (.punctuation .rparen))
    (hsteady : r.isInserted start .lparen = true →
      r.kind? start = some (.punctuation .lparen))
    (h : r.isInserted start .rparen = true) : r.Calm start (start + 1) 0 where
  held_of_inserted index hlow hhigh hinserted := by
    obtain rfl : index = start := by omega
    cases hkind.symm.trans (hsteady hinserted)
  written_le := by rw [written_succ_of_inserted (.inr rfl) h, Nat.add_zero]

theorem held_succ_of_punctuation
    {index : Nat} {mark : Punctuation} (h : r.kind? index = some (.punctuation mark))
    (hcloses : mark.closes = none) : r.held (index + 1) = false := by
  simp [held, h, hcloses, TokenKind.isOperand]

theorem held_succ_of_between
    {index : Nat} {k : TokenKind} {op : Operation} (h : r.kind? index = some k)
    (hbetween : k.between = some op) : r.held (index + 1) = false := by
  have hafter := TokenKind.after_eq_none_of_between hbetween
  obtain ⟨o, rfl, -⟩ := TokenKind.exists_operator_of_between hbetween
  simp [held, h, hafter, TokenKind.isOperand]

theorem held_succ_of_before
    {index : Nat} {k : TokenKind} {op : Operation} (h : r.kind? index = some k)
    (hbefore : k.before = some op) (hheld : r.held index = false) : r.held (index + 1) = false := by
  obtain ⟨o, rfl, -⟩ := TokenKind.exists_operator_of_before hbefore
  simp [held, h, hheld, TokenKind.isOperand]

end Reading

namespace Phrase

open Reading

variable {tokens : Array Token} {g : Grouped} {limit : Nat}

/-- Where a phrase stands grouped, it is calm and ends with an operand. -/
def Calms (g : Grouped) (limit : Nat) (p : Phrase) (start : Nat) : Prop :=
  (Reading.grouped g limit).held start = false →
    (Reading.grouped g limit).Calm start (start + p.wrapped.width) p.width ∧
      (Reading.grouped g limit).held (start + p.wrapped.width) = true

/-- What an application has between its inserted parentheses decides whether it is calm. -/
theorem calm_enclosed
    {start count : Nat} (inner : Nat) (hheld : (Reading.grouped g limit).held start = false)
    (hopening : g.isInserted start .lparen = true)
    (hclosing : g.isInserted (start + 1 + inner) .rparen = true)
    (hinner : (Reading.grouped g limit).held (start + 1) = false →
      (Reading.grouped g limit).Calm (start + 1) (start + 1 + inner) count) :
    (Reading.grouped g limit).Calm start (start + (inner + 2)) count ∧
      (Reading.grouped g limit).held (start + (inner + 2)) = true := by
  have hfirst := Grouped.kindAt_of_inserted hopening
  have hlast := Grouped.kindAt_of_inserted hclosing
  have hopens := calm_of_inserted_lparen hheld hopening
  have hcalm := hinner (held_succ_of_punctuation hfirst rfl)
  have hcloses := calm_of_inserted_rparen (r := Reading.grouped g limit) hlast
    (fun h => Grouped.kindAt_of_inserted h) hclosing
  have hstop : start + (inner + 2) = start + 1 + inner + 1 := by omega
  rw [hstop]
  exact ⟨((hopens.trans hcalm).trans hcloses).of_eq rfl (by omega),
    held_succ_of_closes (b := .paren) hlast rfl⟩

theorem calm_later
    {parts : List Phrase}
    (hparts : ∀ p ∈ parts, ∀ source start, p.Spells tokens source →
      g.Has start (p.grouped tokens source) → p.Calms g limit start)
    {source start : Nat} (h : SpellsLater tokens parts source)
    (hhas : g.Has start (groupedLater tokens parts source)) :
    (Reading.grouped g limit).Calm start (start + laterWidth (wrappedAll parts))
      (laterWidth parts) := by
  induction parts generalizing source start with
  | nil => exact calm_self _ _
  | cons p ps ih =>
      obtain ⟨hcomma, hp, hps⟩ := h
      have hsize := lt_size_of_kindAt hcomma
      rw [groupedLater, Grouped.has_append_iff, Grouped.has_append_iff, length_copy hsize,
        length_grouped hp] at hhas
      obtain ⟨hcopy, hhead, htail⟩ := hhas
      obtain ⟨hkind, hinserted⟩ := Grouped.of_has_copy hsize hcopy
      obtain ⟨hpart, -⟩ := hparts p List.mem_cons_self _ _ hp hhead
        (held_succ_of_punctuation (hkind.trans hcomma) rfl)
      have hrest := ih (fun q hq => hparts q (List.mem_cons_of_mem p hq)) hps htail
      refine (((calm_of_not_inserted (hinserted .lparen)).trans hpart).trans hrest).of_eq ?_ ?_
      · simp only [wrappedAll, laterWidth]
        omega
      · simp only [laterWidth]
        omega

theorem calm_parts
    {parts : List Phrase}
    (hparts : ∀ p ∈ parts, ∀ source start, p.Spells tokens source →
      g.Has start (p.grouped tokens source) → p.Calms g limit start)
    {source start : Nat} (h : SpellsParts tokens parts source)
    (hhas : g.Has start (groupedParts tokens parts source))
    (hheld : (Reading.grouped g limit).held start = false) :
    (Reading.grouped g limit).Calm start (start + partsWidth (wrappedAll parts))
      (partsWidth parts) := by
  cases parts with
  | nil => exact calm_self _ _
  | cons p ps =>
      rw [groupedParts, Grouped.has_append_iff, length_grouped h.1] at hhas
      obtain ⟨hpart, -⟩ := hparts p List.mem_cons_self _ _ h.1 hhas.1 hheld
      have hrest := calm_later (fun q hq => hparts q (List.mem_cons_of_mem p hq)) h.2 hhas.2
      refine (hpart.trans hrest).of_eq ?_ rfl
      simp only [wrappedAll, partsWidth]
      omega

/-- A copied bracket group is calm wherever it stands. -/
theorem calm_group
    {b : Bracket} {parts : List Phrase}
    (hparts : ∀ p ∈ parts, ∀ source start, p.Spells tokens source →
      g.Has start (p.grouped tokens source) → p.Calms g limit start)
    {source start : Nat} (h : (group b parts).Spells tokens source)
    (hhas : g.Has start ((group b parts).grouped tokens source)) :
    (Reading.grouped g limit).Calm start (start + (group b (wrappedAll parts)).width)
        (group b parts).width ∧
      (Reading.grouped g limit).held (start + (group b (wrappedAll parts)).width) = true := by
  obtain ⟨hopen, hmiddle, hclose⟩ := has_group h hhas
  obtain ⟨hopening, hinner, hclosing⟩ := h
  obtain ⟨hopenKind, hopenCopied⟩ := Grouped.of_has_copy (lt_size_of_kindAt hopening) hopen
  obtain ⟨hcloseKind, hcloseCopied⟩ := Grouped.of_has_copy (lt_size_of_kindAt hclosing) hclose
  have hheld : (Reading.grouped g limit).held (start + 1) = false :=
    held_succ_of_punctuation (hopenKind.trans hopening) (by cases b <;> rfl)
  have hcalm := ((calm_of_not_inserted (r := Reading.grouped g limit) (hopenCopied .lparen)).trans
    (calm_parts hparts hinner hmiddle hheld)).trans (calm_of_not_inserted (hcloseCopied .lparen))
  have hstop : start + (group b (wrappedAll parts)).width =
      start + 1 + partsWidth (wrappedAll parts) + 1 := by
    simp only [width]
    omega
  rw [hstop]
  refine ⟨hcalm.of_eq rfl ?_, ?_⟩
  · simp only [width]
    omega
  · exact held_succ_of_closes (hcloseKind.trans hclosing) (TokenKind.closes_eq_some_iff.mpr rfl)

/-- A grouped phrase is calm where no operand ends before it. -/
theorem calms_of_has
    {p : Phrase} {source start : Nat} (h : p.Spells tokens source)
    (hhas : g.Has start (p.grouped tokens source)) (limit : Nat) : p.Calms g limit start := by
  intro hheld
  -- Parentheses are inserted only at the start of an application, where no operand has ended; the
  -- induction carries this to the start of each operand inside.
  induction p generalizing source start with
  | leaf kind =>
      obtain ⟨k, hk, hleaf⟩ := exists_of_spells_leaf h
      obtain ⟨hkind, hinserted⟩ := Grouped.of_has_copy (lt_size_of_kindAt hk) hhas
      exact ⟨calm_of_not_inserted (hinserted .lparen),
        held_succ_of_isOperand (hkind.trans hk) (NodeKind.isOperand_of_ofToken? hleaf)⟩
  | group b parts ih =>
      exact calm_group (fun p hp source start hs hhas hheld => ih p hp hs hhas hheld) h hhas
  | before op operand ih =>
      obtain ⟨k, hk, hbefore⟩ := exists_of_spells_before h
      obtain ⟨hopening, hcopy, hrest, hclosing⟩ := has_before h hhas
      obtain ⟨hkind, hinserted⟩ := Grouped.of_has_copy (lt_size_of_kindAt hk) hcopy
      rw [width_wrapped_before]
      have hlast : start + 1 + (operand.wrapped.width + 1) =
          start + 2 + operand.wrapped.width := by omega
      refine calm_enclosed (operand.wrapped.width + 1) hheld hopening ?_ fun hinner => ?_
      · rwa [hlast]
      · have hoperand := (ih h.2 hrest (held_succ_of_before (hkind.trans hk) hbefore hinner)).1
        refine ((calm_of_not_inserted (hinserted .lparen)).trans hoperand).of_eq hlast ?_
        simp only [width]
        omega
  | after operand op ih =>
      obtain ⟨k, hk, -⟩ := exists_of_spells_after h
      obtain ⟨hopening, hrest, hcopy, hclosing⟩ := has_after h hhas
      obtain ⟨-, hinserted⟩ := Grouped.of_has_copy (lt_size_of_kindAt hk) hcopy
      rw [width_wrapped_after]
      refine calm_enclosed (operand.wrapped.width + 1) hheld hopening hclosing
        fun hinner => ?_
      exact (ih h.1 hrest hinner).1.trans (calm_of_not_inserted (hinserted .lparen))
  | applied callee b parts ihCallee ihParts =>
      obtain ⟨hcallee, hgroup⟩ := spells_applied_iff.mp h
      obtain ⟨hopening, hfirst, hrest, hclosing⟩ := has_applied h hhas
      rw [width_wrapped_applied]
      refine calm_enclosed _ hheld hopening (by rwa [← Nat.add_assoc]) fun hinner => ?_
      have hcalm := (ihCallee hcallee hfirst hinner).1.trans
        (calm_group (fun p hp source start hs hhas hheld => ihParts p hp hs hhas hheld)
          hgroup hrest).1
      exact hcalm.of_eq (Nat.add_assoc _ _ _).symm (width_applied _ _ _)
  | between left op right ihLeft ihRight =>
      obtain ⟨k, hk, hbetween⟩ := exists_of_spells_between h
      obtain ⟨hopening, hleft, hcopy, hright, hclosing⟩ := has_between h hhas
      obtain ⟨hkind, hinserted⟩ := Grouped.of_has_copy (lt_size_of_kindAt hk) hcopy
      rw [width_wrapped_between]
      have hlast : start + 1 + (left.wrapped.width + right.wrapped.width + 1) =
          start + 1 + left.wrapped.width + 1 + right.wrapped.width := by omega
      refine calm_enclosed (left.wrapped.width + right.wrapped.width + 1) hheld hopening
        ?_ fun hinner => ?_
      · rwa [hlast]
      · have hcalm := ((ihLeft h.1 hleft hinner).1.trans
          (calm_of_not_inserted (hinserted .lparen))).trans
          (ihRight h.2.2 hright (held_succ_of_between (hkind.trans hk) hbetween)).1
        refine hcalm.of_eq hlast ?_
        simp only [width]
        omega

end Phrase

namespace Reading

variable {tokens : Array Token} {g : Grouped} {range : TokenRange} {limit : Nat}

/-- What grouping yields is steady and has the written tokens of the range. -/
theorem steady_of_groupTokens
    {most : Nat} (h : groupTokens tokens range most = .ok g) (limit : Nat) :
    (grouped g limit).Steady ∧ (grouped g limit).written g.entries.size ≤ range.length := by
  obtain ⟨p, hcovers, -, hentries⟩ := exists_covers_of_groupTokens h
  have hhas : g.Has 0 (p.grouped tokens range.start) := by
    simp [Grouped.Has, hentries]
  obtain ⟨hcalm, -⟩ := Phrase.calms_of_has hcovers.spells hhas limit rfl
  have hsize : g.entries.size = 0 + p.wrapped.width := by
    rw [hentries, List.size_toArray, Phrase.length_grouped hcovers.spells, Nat.zero_add]
  rw [← hsize] at hcalm
  refine ⟨⟨fun index mark hinserted => Grouped.kindAt_of_inserted hinserted,
    fun index hinserted => ?_⟩, ?_⟩
  · have hindex : index < g.entries.size := by
      have hlt := lt_size_of_kindAt (Grouped.kindAt_of_inserted hinserted)
      simpa [Grouped.tokens] using hlt
    exact hcalm.held_of_inserted index (Nat.zero_le _) hindex hinserted
  · have hwritten := hcalm.written_le
    have hstop := hcovers.stop_eq
    have hzero : (grouped g limit).written 0 = 0 := rfl
    unfold TokenRange.length
    omega

/-- A limit that is enough for a range is enough for its grouped tokens. -/
theorem reaches_whole_grouped
    {most : Nat} (h : groupTokens tokens range most = .ok g) (hlimit : range.length + 1 ≤ limit)
    (production : Production) :
    ((grouped g limit).whole ⟨0, g.entries.size⟩ production).Reaches (fun _ => True) := by
  obtain ⟨hsteady, hwritten⟩ := steady_of_groupTokens h limit
  apply reaches_whole hsteady (Nat.zero_le _)
  show _ ≤ limit + _
  dsimp only
  omega

end Reading

end ExprFront
