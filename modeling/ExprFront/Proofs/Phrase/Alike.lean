import ExprFront.Proofs.Grouping.Regrouped
import ExprFront.Proofs.Parallel
import ExprFront.Proofs.Phrase.WellFormed
import ExprFront.Proofs.Token.Scanned

/-!
# Tokens that differ in their places only

Phrases and the texts of trees look at the kinds and the literals of tokens and
never at their places. Other tokens with the same kinds and literals, up to an
index, spell the same phrases up to there, and the trees are written alike, also
where the tokens with the same literals stand at other indices.
-/

namespace ExprFront

/-! ## Texts -/

section Texts

variable {tokens others : Array Token} {offset bound : Nat}
  (h : ∀ i < bound, tokens[offset + i]?.map Token.literal = others[i]?.map Token.literal)
include h

theorem literalsText_moved_eq
    {range : TokenRange} (hstop : range.stop ≤ bound) :
    literalsText tokens (range.moved offset) = literalsText others range := by
  unfold literalsText
  congr 1
  apply List.ext_getElem?
  intro i
  simp only [Array.toList_extract, List.extract_eq_take_drop, List.getElem?_map,
    List.getElem?_take, List.getElem?_drop, Array.getElem?_toList, TokenRange.start_moved,
    TokenRange.stop_moved, Nat.add_sub_add_left, Nat.add_assoc]
  split
  · exact h _ (by omega)
  · rfl

/-- A well-formed tree is written by the literals that it spans, wherever these stand. -/
theorem Tree.sexpr_moved_eq
    {t : Tree} (hwell : t.WellFormed) (hstop : t.range.stop ≤ bound) :
    (t.moved offset).sexpr tokens = t.sexpr others := by
  induction t with
  | node kind range ts ih =>
      rw [Tree.range_node] at hstop
      have hts : (ts.map (Tree.moved offset)).map (Tree.sexpr tokens) =
          ts.map (Tree.sexpr others) := by
        rw [List.map_map]
        apply List.map_congr_left
        intro t ht
        obtain ⟨hinside, hchild⟩ := hwell.2.2.of_mem ht
        rw [TokenRange.contains_iff] at hinside
        exact ih t ht hchild (Nat.le_trans hinside.2 hstop)
      rw [Tree.moved_node, Tree.sexpr, Tree.sexpr, Tree.sexprAll_eq_map, Tree.sexprAll_eq_map, hts,
        literalsText_moved_eq h hstop]

end Texts

/-! ## Tokens alike -/

/-- Up to an index, the tokens have the same kinds and literals as others. -/
def Alike (tokens others : Array Token) (bound : Nat) : Prop :=
  ∀ i < bound, tokens[i]?.map Token.piece = others[i]?.map Token.piece

variable {tokens others : Array Token} {bound : Nat}

namespace Alike

/-- Tokens are like others that start with the same pieces. -/
theorem of_map_piece
    {rest : List Piece}
    (h : others.toList.map Token.piece = tokens.toList.map Token.piece ++ rest) :
    Alike tokens others tokens.size := by
  intro i hi
  have hat : (others.toList.map Token.piece)[i]? = (tokens.toList.map Token.piece)[i]? := by
    rw [h, List.getElem?_append_left (by simpa using hi)]
  simpa using hat.symm

theorem kindAt_eq
    (h : Alike tokens others bound) {index : Nat} (hindex : index < bound) :
    kindAt tokens index = kindAt others index := by
  have hkind := congrArg (Option.map Piece.kind) (h index hindex)
  rwa [Option.map_map, Option.map_map] at hkind

theorem literal_eq
    (h : Alike tokens others bound) {index : Nat} (hindex : index < bound) :
    tokens[index]?.map Token.literal = others[index]?.map Token.literal := by
  have htext := congrArg (Option.map fun piece => String.ofList piece.text) (h index hindex)
  simpa [Option.map_map, Function.comp_def, Token.piece] using htext

/-- A well-formed tree is written alike. -/
theorem sexpr_eq
    (h : Alike tokens others bound) {t : Tree} (hwell : t.WellFormed)
    (hstop : t.range.stop ≤ bound) : t.sexpr tokens = t.sexpr others := by
  have hliterals : ∀ i < bound,
      tokens[0 + i]?.map Token.literal = others[i]?.map Token.literal := by
    intro i hi
    rw [Nat.zero_add, h.literal_eq hi]
  have hmoved := Tree.sexpr_moved_eq hliterals hwell hstop
  rwa [Tree.moved_zero] at hmoved

theorem plainText_eq
    (h : Alike tokens others bound) {t : Tree} (hwell : t.WellFormed)
    (hstop : t.range.stop ≤ bound) : t.plainText tokens = t.plainText others := by
  obtain ⟨hsimplified, hinside⟩ := hwell.simplified_and_contains
  rw [TokenRange.contains_iff] at hinside
  exact h.sexpr_eq hsimplified (Nat.le_trans hinside.2 hstop)

end Alike

namespace Phrase

theorem SpellsLater.alike
    (halike : Alike tokens others bound) {parts : List Phrase}
    (hparts : ∀ p ∈ parts, ∀ start, p.Spells tokens start → start + p.width ≤ bound →
      p.Spells others start)
    {start : Nat} (h : SpellsLater tokens parts start) (hstop : start + laterWidth parts ≤ bound) :
    SpellsLater others parts start := by
  induction parts generalizing start with
  | nil => trivial
  | cons p ps ih =>
      obtain ⟨hcomma, hp, hps⟩ := h
      simp only [laterWidth] at hstop
      rw [halike.kindAt_eq (by omega)] at hcomma
      exact ⟨hcomma, hparts p List.mem_cons_self _ hp (by omega),
        ih (fun q hq => hparts q (List.mem_cons_of_mem p hq)) hps (by omega)⟩

/-- A bracket group is spelled by tokens alike if its parts are. -/
theorem spells_group_alike
    (halike : Alike tokens others bound) {b : Bracket} {parts : List Phrase}
    (hparts : ∀ p ∈ parts, ∀ start, p.Spells tokens start → start + p.width ≤ bound →
      p.Spells others start)
    {start : Nat} (h : (group b parts).Spells tokens start)
    (hstop : start + (group b parts).width ≤ bound) : (group b parts).Spells others start := by
  obtain ⟨hopening, hinner, hclosing⟩ := h
  simp only [width] at hstop
  rw [halike.kindAt_eq (by omega)] at hopening hclosing
  refine ⟨hopening, ?_, hclosing⟩
  cases parts with
  | nil => trivial
  | cons p ps =>
      simp only [partsWidth] at hstop
      exact ⟨hparts p List.mem_cons_self _ hinner.1 (by omega),
        SpellsLater.alike halike (fun q hq => hparts q (List.mem_cons_of_mem p hq)) hinner.2
          (by omega)⟩

/-- Tokens alike spell the same phrases. -/
theorem Spells.alike
    {p : Phrase} {start : Nat} (h : p.Spells tokens start) (halike : Alike tokens others bound)
    (hstop : start + p.width ≤ bound) : p.Spells others start := by
  induction p generalizing start with
  | leaf kind =>
      simp only [width] at hstop
      rwa [Spells, ← halike.kindAt_eq (by omega)]
  | group b parts ih =>
      exact spells_group_alike halike (fun p hp start hs => ih p hp hs) h hstop
  | before op operand ih =>
      simp only [width] at hstop
      refine ⟨?_, ih h.2 (by omega)⟩
      rw [← halike.kindAt_eq (by omega)]
      exact h.1
  | after operand op ih =>
      simp only [width] at hstop
      refine ⟨ih h.1 (by omega), ?_⟩
      rw [← halike.kindAt_eq (by omega)]
      exact h.2
  | applied callee b parts ihCallee ihParts =>
      rw [width_applied] at hstop
      obtain ⟨hcallee, hgroup⟩ := spells_applied_iff.mp h
      exact spells_applied_iff.mpr ⟨ihCallee hcallee (by omega),
        spells_group_alike halike (fun p hp start hs => ihParts p hp hs) hgroup (by omega)⟩
  | between left op right ihLeft ihRight =>
      simp only [width] at hstop
      refine ⟨ihLeft h.1 (by omega), ?_, ihRight h.2.2 (by omega)⟩
      rw [← halike.kindAt_eq (by omega)]
      exact h.2.1

/-- Tokens alike are covered by the same phrases, which are written alike. -/
theorem Covers.alike
    {p : Phrase} {range : TokenRange} (h : p.Covers tokens range) (hsingle : p.Single)
    (halike : Alike tokens others bound) (hstop : range.stop ≤ bound) :
    p.Covers others range ∧
      (p.tree range.start).plainText others = (p.tree range.start).plainText tokens := by
  have hwidth := h.stop_eq
  refine ⟨⟨h.spells.alike halike (by omega), h.stop_eq⟩, ?_⟩
  refine (halike.plainText_eq (wellFormed_tree h.spells hsingle) ?_).symm
  rw [range_tree]
  exact Nat.le_trans (Nat.le_of_eq hwidth) hstop

end Phrase

end ExprFront
