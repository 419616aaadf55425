import ExprFront.Proofs.Grouping.Phrased
import ExprFront.Proofs.Grouping.Wrapped

/-!
# Ranges mapped back

Grouping copies the tokens of its range one after the other, so that the tokens
copied before an index of the result are counted, and a range of the result is
mapped back to what lies between two such counts. The ranges before the first copied
token are the exception. They are mapped to the start of all tokens and not to the
start of the range, which is out of place unless the range starts there.
-/

namespace ExprFront

namespace Grouped

variable {g : Grouped} {range r r' : TokenRange}

/-- The tokens of the range have been copied, each once and in order. -/
def Copies (g : Grouped) (range : TokenRange) : Prop :=
  g.copied ⟨0, g.entries.size⟩ = List.range' range.start range.length

/-- How many tokens were copied before an index of the result. -/
def countBefore (g : Grouped) (index : Nat) : Nat := (g.copied ⟨0, index⟩).length

theorem countBefore_mono
    {i j : Nat} (h : i ≤ j) : g.countBefore i ≤ g.countBefore j := by
  rw [countBefore, countBefore, g.copied_append (Nat.zero_le i) h, List.length_append]
  exact Nat.le_add_right _ _

/-- The tokens copied before an index are the first ones of the range. -/
theorem Copies.copied_before
    (h : g.Copies range) {index : Nat} (hindex : index ≤ g.entries.size) :
    g.copied ⟨0, index⟩ = List.range' range.start (g.countBefore index) ∧
      g.countBefore index ≤ range.length := by
  have hsplit : List.range' range.start range.length =
      g.copied ⟨0, index⟩ ++ g.copied ⟨index, g.entries.size⟩ :=
    h.symm.trans (g.copied_append (Nat.zero_le index) hindex)
  obtain ⟨count, hle, hbefore, -⟩ := List.range'_eq_append_iff.mp hsplit
  have hcount : g.countBefore index = count := by
    rw [countBefore, hbefore, List.length_range']
  rw [hcount]
  exact ⟨hbefore, hle⟩

/-- The tokens copied between two indices lie between the counts at these. -/
theorem Copies.copied_between
    (h : g.Copies range) (hle : r.start ≤ r.stop) (hstop : r.stop ≤ g.entries.size) :
    g.copied r = List.range' (range.start + g.countBefore r.start)
      (g.countBefore r.stop - g.countBefore r.start) := by
  have hsplit := g.copied_append (Nat.zero_le r.start) hle
  rw [(h.copied_before hstop).1, (h.copied_before (Nat.le_trans hle hstop)).1] at hsplit
  have hcounts : g.countBefore r.start + (g.countBefore r.stop - g.countBefore r.start) =
      g.countBefore r.stop := Nat.add_sub_cancel' (countBefore_mono hle)
  rw [← hcounts, ← List.range'_append_1] at hsplit
  exact (List.append_cancel_left hsplit).symm

/-- A range is mapped back to what lies between the counts at its ends, unless nothing was copied
before its end. -/
theorem Copies.sourceRange_eq
    (h : g.Copies range) (hle : r.start ≤ r.stop) (hstop : r.stop ≤ g.entries.size) :
    g.sourceRange r =
      if g.countBefore r.stop = 0 then ⟨0, 0⟩
      else ⟨range.start + g.countBefore r.start, range.start + g.countBefore r.stop⟩ := by
  have hmono : g.countBefore r.start ≤ g.countBefore r.stop := countBefore_mono hle
  have hinside := h.copied_between hle hstop
  rcases Nat.eq_or_lt_of_le hmono with heq | hlt
  · rw [heq, Nat.sub_self, List.range'_zero] at hinside
    have hbefore := (h.copied_before (Nat.le_trans hle hstop)).1
    rw [heq] at hbefore ⊢
    cases hcount : g.countBefore r.stop with
    | zero =>
        rw [hcount] at hbefore
        simp [sourceRange, hinside, hbefore]
    | succ count =>
        rw [hcount] at hbefore
        have hlast : (List.range' range.start (count + 1)).getLast? =
            some (range.start + count) := by
          simp [List.range'_concat]
        simp [sourceRange, hinside, hbefore, hlast, Nat.add_assoc]
  · rw [sourceRange_of_copied (by omega) hinside, if_neg (by omega)]
    congr 1
    omega

theorem countBefore_eq_zero_iff
    {index : Nat} : g.countBefore index = 0 ↔ g.copied ⟨0, index⟩ = [] :=
  List.length_eq_zero_iff

/-! ## What ranges are mapped back to -/

/-- How the ranges of a result are mapped back to the range that was grouped. Those that end before
anything was copied are mapped to the start of all tokens. -/
structure MapsBack (g : Grouped) (range : TokenRange) : Prop where
  /-- A range into which something was copied is mapped to the smallest range with all of it. -/
  smallest : ∀ r : TokenRange, r.start ≤ r.stop → r.stop ≤ g.entries.size → g.copied r ≠ [] →
    ∀ other : TokenRange, other.contains (g.sourceRange r) = true ↔
      ∀ index ∈ g.copied r, other.start ≤ index ∧ index < other.stop
  /-- A range into which nothing was copied is mapped to an empty range. -/
  empty : ∀ r : TokenRange, r.start ≤ r.stop → r.stop ≤ g.entries.size → g.copied r = [] →
    (g.sourceRange r).start = (g.sourceRange r).stop
  inside_iff : ∀ r : TokenRange, r.start ≤ r.stop → r.stop ≤ g.entries.size →
    (range.contains (g.sourceRange r) = true ↔
      range.start = 0 ∨ g.copied ⟨0, r.stop⟩ ≠ [])
  nested_iff : ∀ r r' : TokenRange, r.start ≤ r.stop → r'.start ≤ r'.stop →
    r'.stop ≤ g.entries.size → r'.contains r = true →
    ((g.sourceRange r').contains (g.sourceRange r) = true ↔
      range.start = 0 ∨ g.copied ⟨0, r.stop⟩ ≠ [] ∨ g.copied ⟨0, r'.stop⟩ = [])

theorem Copies.smallest
    (h : g.Copies range) (hle : r.start ≤ r.stop) (hstop : r.stop ≤ g.entries.size)
    (hne : g.copied r ≠ []) (other : TokenRange) :
    other.contains (g.sourceRange r) = true ↔
      ∀ index ∈ g.copied r, other.start ≤ index ∧ index < other.stop := by
  have hcopied := h.copied_between hle hstop
  have hlt : g.countBefore r.start < g.countBefore r.stop := by
    by_contra hge
    rw [Nat.sub_eq_zero_of_le (Nat.le_of_not_lt hge), List.range'_zero] at hcopied
    exact hne hcopied
  rw [h.sourceRange_eq hle hstop, if_neg (by omega), TokenRange.contains_iff, hcopied]
  simp only [List.mem_range'_1]
  constructor
  · rintro ⟨hstart, hend⟩ index ⟨hlow, hhigh⟩
    omega
  · intro hall
    have hfirst := hall (range.start + g.countBefore r.start) ⟨Nat.le_refl _, by omega⟩
    have hlast := hall (range.start + g.countBefore r.stop - 1) ⟨by omega, by omega⟩
    omega

theorem Copies.mapsBack
    (h : g.Copies range) (hrange : range.start ≤ range.stop) : g.MapsBack range where
  smallest r hle hstop hne other := h.smallest hle hstop hne other
  empty r hle hstop hnone := by
    have hcopied := h.copied_between hle hstop
    rw [hnone] at hcopied
    have hcounts : g.countBefore r.stop - g.countBefore r.start = 0 := by
      simpa using (congrArg List.length hcopied).symm
    have hmono : g.countBefore r.start ≤ g.countBefore r.stop := countBefore_mono hle
    rw [h.sourceRange_eq hle hstop]
    split
    · rfl
    · dsimp only
      omega
  inside_iff r hle hstop := by
    have hcount := (h.copied_before hstop).2
    rw [h.sourceRange_eq hle hstop, TokenRange.contains_iff, ne_eq, ← countBefore_eq_zero_iff]
    unfold TokenRange.length at hcount
    split
    · dsimp only
      omega
    · dsimp only
      omega
  nested_iff r r' hle hle' hstop' hinside := by
    rw [TokenRange.contains_iff] at hinside
    have hstarts : g.countBefore r'.start ≤ g.countBefore r.start := countBefore_mono hinside.1
    have hstops : g.countBefore r.stop ≤ g.countBefore r'.stop := countBefore_mono hinside.2
    have hmono : g.countBefore r.start ≤ g.countBefore r.stop := countBefore_mono hle
    rw [h.sourceRange_eq hle (Nat.le_trans hinside.2 hstop'), h.sourceRange_eq hle' hstop',
      TokenRange.contains_iff, ne_eq, ← countBefore_eq_zero_iff, ← countBefore_eq_zero_iff]
    split <;> split <;> dsimp only <;> omega

end Grouped

open Grouping Grouped

/-- Ranges of a grouped expression are mapped back monotonically and in place, except that those
which end before the first copied token are mapped to the start of all tokens. -/
theorem mapsBack_of_groupTokens
    {tokens : Array Token} {range : TokenRange} {limit : Nat} {g : Grouped}
    (h : groupTokens tokens range limit = .ok g) : g.MapsBack range := by
  obtain ⟨p, hcovers, -, hentries⟩ := exists_covers_of_groupTokens h
  have hstop := hcovers.stop_eq
  have hcopies : g.Copies range := by
    have hlength : range.length = p.width := by
      unfold TokenRange.length
      omega
    have hsources := Phrase.sources_grouped hcovers.spells
    rw [Copies, hlength, ← hsources, copied, hentries]
    simp
  exact hcopies.mapsBack (by omega)

/-- The tokens of `;-x`. -/
def Grouping.sampleSecond : Array Token :=
  #[⟨.punctuation .semicolon, ";", ⟨0, 1⟩, 1, 1, 1⟩, ⟨.operator .minus, "-", ⟨1, 2⟩, 1, 2, 1⟩,
    ⟨.identifier, "x", ⟨2, 3⟩, 1, 3, 1⟩]

theorem Grouping.exists_grouped_sampleSecond :
    ∃ g, groupTokens sampleSecond ⟨1, 3⟩ 100 = .ok g ∧ g.entries.size = 4 ∧
      g.copied ⟨0, 2⟩ = [1] ∧ g.sourceRange ⟨0, 1⟩ = ⟨0, 0⟩ ∧ g.sourceRange ⟨0, 2⟩ = ⟨1, 2⟩ := by
  have hparts : (groupTokens sampleSecond ⟨1, 3⟩ 100).map (fun g => (g.entries.size,
      g.copied ⟨0, 2⟩, g.sourceRange ⟨0, 1⟩, g.sourceRange ⟨0, 2⟩)) =
        .ok (4, [1], ⟨0, 0⟩, ⟨1, 2⟩) := by
    decide +kernel
  cases hg : groupTokens sampleSecond ⟨1, 3⟩ 100 with
  | error e =>
      rw [hg] at hparts
      cases hparts
  | ok g =>
      simp only [hg, Except.map, Except.ok.injEq, Prod.mk.injEq] at hparts
      exact ⟨g, rfl, hparts⟩

/-- The second statement is grouped to `(-x)`, and its minus is mapped back to where it stands. -/
theorem mapsBack_of_groupTokens_sample :
    ∃ g, groupTokens sampleSecond ⟨1, 3⟩ 100 = .ok g ∧ g.MapsBack ⟨1, 3⟩ ∧
      (⟨1, 2⟩ : TokenRange).contains (g.sourceRange ⟨0, 2⟩) = true := by
  obtain ⟨g, hg, hsize, hcopied, -⟩ := exists_grouped_sampleSecond
  have hback := mapsBack_of_groupTokens hg
  refine ⟨g, hg, hback, ?_⟩
  rw [hback.smallest ⟨0, 2⟩ (by decide) (by dsimp only; omega) (by simp [hcopied]), hcopied]
  simp

/-- The parenthesis inserted before the minus is mapped to the start of the first statement. This
lies neither in the range that was grouped nor in what the parenthesis and the minus together are
mapped to. -/
theorem sourceRange_before_second :
    ∃ g, groupTokens sampleSecond ⟨1, 3⟩ 100 = .ok g ∧ g.entries.size = 4 ∧
      (⟨1, 3⟩ : TokenRange).contains (g.sourceRange ⟨0, 1⟩) = false ∧
      (g.sourceRange ⟨0, 2⟩).contains (g.sourceRange ⟨0, 1⟩) = false := by
  obtain ⟨g, hg, hsize, -, hparenthesis, hboth⟩ := exists_grouped_sampleSecond
  refine ⟨g, hg, hsize, ?_, ?_⟩
  · rw [hparenthesis]
    rfl
  · rw [hparenthesis, hboth]
    rfl

end ExprFront
