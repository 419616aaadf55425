import ExprFront.Proofs.Reading.Inserted
import ExprFront.Proofs.Tree.Shape

/-!
# Grouped trees mapped back

The tree that is read where a phrase stands grouped has its ranges in the
grouped tokens. Each of them covers the copies of what the node spans in the
input, and at most inserted parentheses on top, so mapping the ranges back gives
the tree of the phrase where it was written.
-/

namespace ExprFront

open Grouping

namespace Phrase

variable {tokens : Array Token} {g : Grouped}

/-! ## Ranges of nodes -/

/-- The node of a phrase that stands grouped spans all of its tokens but inserted parentheses. -/
structure Edged (g : Grouped) (p : Phrase) (start : Nat) : Prop where
  le_start : start ≤ (p.mirror start).range.start
  start_lt_stop : (p.mirror start).range.start < (p.mirror start).range.stop
  stop_le : (p.mirror start).range.stop ≤ start + p.wrapped.width
  copied_before : g.copied ⟨start, (p.mirror start).range.start⟩ = []
  copied_after : g.copied ⟨(p.mirror start).range.stop, start + p.wrapped.width⟩ = []

/-- Nothing was copied to an inserted parenthesis and a range before which nothing was copied. -/
theorem copied_cons
    {start first : Nat} {mark : Punctuation} (hinserted : g.isInserted start mark = true)
    (hle : start + 1 ≤ first) (h : g.copied ⟨start + 1, first⟩ = []) :
    g.copied ⟨start, first⟩ = [] := by
  rw [g.copied_append (Nat.le_succ start) hle, Grouped.copied_of_inserted hinserted, h]
  rfl

/-- Nothing was copied to a range after which nothing was copied and an inserted parenthesis. -/
theorem copied_concat
    {last stop : Nat} {mark : Punctuation} (hinserted : g.isInserted stop mark = true)
    (hle : last ≤ stop) (h : g.copied ⟨last, stop⟩ = []) : g.copied ⟨last, stop + 1⟩ = [] := by
  rw [g.copied_append hle (Nat.le_succ stop), Grouped.copied_of_inserted hinserted, h]
  rfl

theorem Marked.edged
    {p : Phrase} {start : Nat} (h : p.Marked g.isInserted start) : p.Edged g start := by
  induction p generalizing start with
  | leaf kind =>
      exact ⟨Nat.le_refl _, Nat.lt_succ_self _, Nat.le_refl _, g.copied_self _, g.copied_self _⟩
  | group b parts _ =>
      refine ⟨Nat.le_refl _, ?_, Nat.le_refl _, g.copied_self _, g.copied_self _⟩
      have := (group b (wrappedAll parts)).width_pos
      simp only [mirror, Tree.range_node]
      omega
  | before op operand ih =>
      obtain ⟨hopening, -, hoperand, hclosing⟩ := h
      obtain ⟨hle, hlt, hstop, -, hafter⟩ := ih hoperand
      have hwidth : start + (operand.wrapped.width + 3) =
          start + 2 + operand.wrapped.width + 1 := by omega
      constructor <;> simp only [mirror, Tree.range_node] at * <;>
        (try rw [width_wrapped_before, hwidth])
      · omega
      · omega
      · omega
      · exact copied_cons hopening (Nat.le_refl _) (g.copied_self _)
      · exact copied_concat hclosing hstop hafter
  | after operand op ih =>
      obtain ⟨hopening, hoperand, hclosing⟩ := h
      obtain ⟨hle, hlt, hstop, hbefore, -⟩ := ih hoperand
      have hwidth : start + (operand.wrapped.width + 3) =
          start + 1 + operand.wrapped.width + 1 + 1 := by omega
      constructor <;> simp only [mirror, Tree.range_node] at * <;>
        (try rw [width_wrapped_after, hwidth])
      · omega
      · omega
      · omega
      · exact copied_cons hopening hle hbefore
      · exact copied_concat hclosing (Nat.le_refl _) (g.copied_self _)
  | applied callee b parts ih _ =>
      obtain ⟨hopening, hcallee, -, hclosing⟩ := h
      obtain ⟨hle, hlt, hstop, hbefore, -⟩ := ih hcallee
      have hpos := (group b (wrappedAll parts)).width_pos
      have hwidth : start + (callee.wrapped.width + (group b (wrappedAll parts)).width + 2) =
          start + 1 + callee.wrapped.width + (group b (wrappedAll parts)).width + 1 := by omega
      constructor <;> simp only [mirror, Tree.range_node] at * <;>
        (try rw [width_wrapped_applied, hwidth])
      · omega
      · omega
      · omega
      · exact copied_cons hopening hle hbefore
      · exact copied_concat hclosing (Nat.le_refl _) (g.copied_self _)
  | between left op right ihLeft ihRight =>
      obtain ⟨hopening, hleft, hright, hclosing⟩ := h
      obtain ⟨hle, hlt, hstop, hbefore, -⟩ := ihLeft hleft
      obtain ⟨hle', hlt', hstop', -, hafter⟩ := ihRight hright
      have hwidth : start + (left.wrapped.width + right.wrapped.width + 3) =
          start + 1 + left.wrapped.width + 1 + right.wrapped.width + 1 := by omega
      constructor <;> simp only [mirror, Tree.range_node] at * <;>
        (try rw [width_wrapped_between, hwidth])
      · omega
      · omega
      · omega
      · exact copied_cons hopening hle hbefore
      · exact copied_concat hclosing hstop' hafter

/-- A node spans the copies of all tokens of its phrase. -/
theorem Edged.copied_range
    {p : Phrase} {start : Nat} (h : p.Edged g start) :
    g.copied (p.mirror start).range = g.copied ⟨start, start + p.wrapped.width⟩ := by
  obtain ⟨hle, hlt, hstop, hbefore, hafter⟩ := h
  rw [g.copied_append hle (by omega), hbefore, List.nil_append,
    g.copied_append (Nat.le_of_lt hlt) hstop, hafter, List.append_nil]

/-- The node of a phrase is mapped back to where the phrase was written. -/
theorem sourceRange_mirror
    {p : Phrase} {source start : Nat} (h : p.Spells tokens source)
    (hhas : g.Has start (p.grouped tokens source)) :
    g.sourceRange (p.mirror start).range = ⟨source, source + p.width⟩ := by
  have hcopied := Grouped.copied_of_has hhas
  rw [length_grouped h, sources_grouped h] at hcopied
  apply Grouped.sourceRange_of_copied p.width_pos
  rw [(sits_of_has h hhas).marked.edged.copied_range, hcopied]

/-! ## Trees -/

theorem mapRanges_mirrorParts
    {parts : List Phrase}
    (hparts : ∀ p ∈ parts, ∀ source start, p.Spells tokens source →
      g.Has start (p.grouped tokens source) →
      (p.mirror start).mapRanges g.sourceRange = p.tree source)
    {source start : Nat} (h : EachHas tokens g parts source start) :
    (mirrorParts parts start).map (Tree.mapRanges g.sourceRange) = partTrees parts source := by
  induction parts generalizing source start with
  | nil => rfl
  | cons p ps ih =>
      obtain ⟨hp, hhead, htail⟩ := h
      rw [mirrorParts, partTrees, List.map_cons, ← Tree.bare_mapRanges,
        hparts p List.mem_cons_self _ _ hp hhead,
        ih (fun q hq => hparts q (List.mem_cons_of_mem p hq)) htail]

/-- The node of a bracket group, of whatever kind, is mapped back with its parts. -/
theorem mapRanges_mirror_group
    {b : Bracket} {parts : List Phrase}
    (hparts : ∀ p ∈ parts, ∀ source start, p.Spells tokens source →
      g.Has start (p.grouped tokens source) →
      (p.mirror start).mapRanges g.sourceRange = p.tree source)
    {source start : Nat} (h : (group b parts).Spells tokens source)
    (hhas : g.Has start ((group b parts).grouped tokens source)) (kind : NodeKind) :
    (Tree.node kind ⟨start, start + (group b (wrappedAll parts)).width⟩
        (mirrorParts parts (start + 1))).mapRanges g.sourceRange =
      .node kind ⟨source, source + (group b parts).width⟩ (partTrees parts (source + 1)) := by
  have hrange := sourceRange_mirror h hhas
  have hinner := SpellsParts.eachHas h.2.1 (has_group h hhas).2.1
  simp only [mirror, Tree.range_node] at hrange
  rw [Tree.mapRanges_node, hrange, mapRanges_mirrorParts hparts hinner]

/-- Mapped back, the tree that is read for a grouped phrase is that of the phrase. -/
theorem mapRanges_mirror
    {p : Phrase} {source start : Nat} (h : p.Spells tokens source)
    (hhas : g.Has start (p.grouped tokens source)) :
    (p.mirror start).mapRanges g.sourceRange = p.tree source := by
  -- The range of the root is known for every phrase; the children are by induction.
  have hrange := sourceRange_mirror h hhas
  induction p generalizing source start with
  | leaf kind =>
      simp only [mirror, Tree.leaf, Tree.range_node] at hrange
      simp only [mirror, tree, Tree.leaf, Tree.mapRanges_node, hrange, width, List.map_nil]
  | group b parts ih =>
      have hparts : ∀ p ∈ parts, ∀ source start, p.Spells tokens source →
          g.Has start (p.grouped tokens source) →
          (p.mirror start).mapRanges g.sourceRange = p.tree source :=
        fun p hp source start hs hg => ih p hp hs hg (sourceRange_mirror hs hg)
      rw [mirror, mapRanges_mirror_group hparts h hhas, tree, width]
  | before op operand ih =>
      obtain ⟨-, -, hrest, -⟩ := has_before h hhas
      have hoperand := ih h.2 hrest (sourceRange_mirror h.2 hrest)
      simp only [mirror, Tree.range_node] at hrange
      simp only [mirror, tree, Tree.mapRanges_node, hrange, width, List.map_cons, List.map_nil,
        hoperand]
  | after operand op ih =>
      obtain ⟨-, hrest, -, -⟩ := has_after h hhas
      have hoperand := ih h.1 hrest (sourceRange_mirror h.1 hrest)
      simp only [mirror, Tree.range_node] at hrange
      simp only [mirror, tree, Tree.mapRanges_node, hrange, width, List.map_cons, List.map_nil,
        hoperand]
  | applied callee b parts ihCallee ihParts =>
      obtain ⟨hcallee, hgroup⟩ := spells_applied_iff.mp h
      obtain ⟨-, hfirst, hrest, -⟩ := has_applied h hhas
      have hcalleeTree := ihCallee hcallee hfirst (sourceRange_mirror hcallee hfirst)
      have hgroupTree := mapRanges_mirror_group
        (fun p hp source start hs hg => ihParts p hp hs hg (sourceRange_mirror hs hg))
        hgroup hrest (Reading.groupRole b).2.1
      simp only [mirror, Tree.range_node] at hrange
      rw [mirror, Tree.mapRanges_node, hrange, List.map_cons, List.map_singleton, hcalleeTree,
        hgroupTree, tree, width, width]
  | between left op right ihLeft ihRight =>
      obtain ⟨-, hfirst, -, hrest, -⟩ := has_between h hhas
      have hleft := ihLeft h.1 hfirst (sourceRange_mirror h.1 hfirst)
      have hright := ihRight h.2.2 hrest (sourceRange_mirror h.2.2 hrest)
      simp only [mirror, Tree.range_node] at hrange
      simp only [mirror, tree, Tree.mapRanges_node, hrange, width, List.map_cons, List.map_nil,
        hleft, hright]

end Phrase

/-- What is read from all of a grouped phrase has the outcome of the phrase. -/
theorem Reading.whole_grouped
    {tokens : Array Token} {limit source : Nat} {p : Phrase} {g : Grouped}
    {bad : ParseError → Prop} {production : Production}
    (hbad : (Reading.grouped g limit).Rejects bad)
    (hcomma : (Reading.grouped g limit).RejectsComma bad production)
    (hspells : p.Spells tokens source) (hordered : p.Ordered) (hfilled : p.Filled)
    (hentries : g.entries = (p.grouped tokens source).toArray) :
    Attempt.OutcomeBy bad ((plain tokens limit).AdmitsRange 0 p)
      ((Reading.grouped g limit).whole ⟨0, g.entries.size⟩ production)
      (.ok (p.mirror 0).bare) := by
  have hfuel : 40 * (limit - 0) < recursionBound limit := by
    unfold recursionBound
    omega
  have hhas : g.Has 0 (p.grouped tokens source) := by
    simp [Grouped.Has, hentries]
  have hsits := Phrase.sits_of_has hspells hhas
  have hsize : g.entries.size = 0 + p.wrapped.width := by
    simp [hentries, Phrase.length_grouped hspells]
  have hfills : (Reading.grouped g limit).FillsGrouped bad p :=
    (Reading.reads_and_fillsGrouped hbad hordered hfilled).2.2
  rw [hsize]
  exact hfills _ 0 0 production hcomma hsits.spells hsits.marked hfuel

/-- What is read from all of a grouped phrase is the tree of the phrase or is refused. -/
theorem Reading.outcome_whole_grouped
    {tokens : Array Token} {limit source : Nat} {p : Phrase} {g : Grouped}
    (hspells : p.Spells tokens source) (hordered : p.Ordered) (hfilled : p.Filled)
    (hentries : g.entries = (p.grouped tokens source).toArray) (production : Production) :
    Attempt.Outcome ((plain tokens limit).AdmitsRange 0 p)
      ((Reading.grouped g limit).whole ⟨0, g.entries.size⟩ production)
      (.ok (p.mirror 0).bare) :=
  whole_grouped (rejects_isRefusal _) (rejectsComma_isRefusal _ _) hspells hordered hfilled
    hentries

/-- Mapped back, the tree of all of a grouped phrase is that of the phrase. -/
theorem Phrase.mapRanges_bare_mirror
    {tokens : Array Token} {source : Nat} {p : Phrase} {g : Grouped}
    (hspells : p.Spells tokens source)
    (hentries : g.entries = (p.grouped tokens source).toArray) :
    (p.mirror 0).bare.mapRanges g.sourceRange = (p.tree source).bare := by
  have hhas : g.Has 0 (p.grouped tokens source) := by
    simp [Grouped.Has, hentries]
  rw [← Tree.bare_mapRanges, mapRanges_mirror hspells hhas]

end ExprFront
