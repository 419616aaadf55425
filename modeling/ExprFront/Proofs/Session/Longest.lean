import ExprFront.Arena.Printer
import ExprFront.Proofs.Grouping.Listed
import ExprFront.Proofs.Session.Checked
import ExprFront.Proofs.Session.Grammar

/-!
# The longest expression at the start of a range

What is delivered as the longest expression cannot be continued: the token
behind it neither opens a bracket nor stands after or between operands. This is
enough to rule out every longer expression from the same start, however its
operations would be grouped. A longer phrase that reaches past the token has it
outside brackets, directly behind an operand, and there a phrase only goes on
with a token of these kinds. Up to the token, the same expression is delivered
when exactly its range is to be filled.
-/

namespace ExprFront

/-! ## How phrases go on -/

section Continuing

variable {tokens : Array Token} {first index start : Nat}

/-- A phrase goes on with the token once it has an operand before it. -/
def TokenKind.Continues (k : TokenKind) : Prop :=
  k.opens ≠ none ∨ k.after ≠ none ∨ k.between ≠ none

namespace Phrase

/-- No index within a bracket group is reached from its start without the brackets of the group. -/
theorem not_balanced_of_group
    {b : Bracket} {parts : List Phrase} (h : (group b parts).Spells tokens start)
    (hlow : start < index) (hhigh : index < start + (group b parts).width) :
    ¬ Balanced tokens (fun _ => True) start index := by
  intro hbalanced
  obtain ⟨hopening, hparts, hclosing⟩ := h
  obtain ⟨closing, hlt, hinner, hclosed⟩ :=
    hbalanced.exists_closing (Nat.le_refl _) hlow hopening
  have heq := Balanced.middle_unique hopening hparts.balanced hclosing hinner hclosed
  simp only [width] at hhigh
  omega

/-- Wherever a phrase has an operand behind it, outside brackets, it goes on with a token that
continues operands. -/
theorem exists_continues_of_spells
    {p : Phrase} (h : p.Spells tokens start) (hfirst : first ≤ start)
    (hheld : heldBefore tokens first start = false) (hlow : start < index)
    (hhigh : index < start + p.width) (hbalanced : Balanced tokens (fun _ => True) start index)
    (hends : heldBefore tokens first index = true) :
    ∃ k, kindAt tokens index = some k ∧ k.Continues := by
  induction p generalizing start with
  | leaf kind =>
      simp only [width] at hhigh
      omega
  | group b parts _ => exact absurd hbalanced (not_balanced_of_group h hlow hhigh)
  | before op operand ih =>
      obtain ⟨k, hk, hbefore⟩ := exists_of_spells_before h
      have hoperand := heldBefore_of_before hfirst hheld hk hbefore
      have hne : index ≠ start + 1 := by
        rintro rfl
        rw [hoperand] at hends
        cases hends
      have hoperator : Balanced tokens NoComma start (start + 1) := by
        obtain ⟨o, rfl, -⟩ := TokenKind.exists_operator_of_before hbefore
        exact balanced_operator hk
      simp only [width] at hhigh
      exact ih h.2 (by omega) hoperand (by omega) (by omega)
        (hoperator.cancel hbalanced (by omega))
  | after operand op ih =>
      obtain ⟨k, hk, hafter⟩ := exists_of_spells_after h
      simp only [width] at hhigh
      by_cases hinside : index < start + operand.width
      · exact ih h.1 hfirst hheld hlow hinside hbalanced
      · obtain rfl : index = start + operand.width := by omega
        exact ⟨k, hk, .inr (.inl (by simp [hafter]))⟩
  | applied callee b parts ih _ =>
      obtain ⟨hcallee, hgroup⟩ := spells_applied_iff.mp h
      rw [width_applied, ← Nat.add_assoc] at hhigh
      rcases Nat.lt_trichotomy index (start + callee.width) with hinside | rfl | hbehind
      · exact ih hcallee hfirst hheld hlow hinside hbalanced
      · exact ⟨_, hgroup.1, .inl (by simp [TokenKind.opens_eq_some_iff.mpr rfl])⟩
      · have hcancel := hcallee.balanced.cancel hbalanced (Nat.le_of_lt hbehind)
        exact absurd hcancel (not_balanced_of_group hgroup hbehind hhigh)
  | between left op right ihLeft ihRight =>
      obtain ⟨k, hk, hbetween⟩ := exists_of_spells_between h
      simp only [width] at hhigh
      rcases Nat.lt_trichotomy index (start + left.width) with hinside | rfl | hbehind
      · exact ihLeft h.1 hfirst hheld hlow hinside hbalanced
      · exact ⟨k, hk, .inr (.inr (by simp [hbetween]))⟩
      · have hright := heldBefore_of_between (by omega : first ≤ start + left.width) hk hbetween
        have hne : index ≠ start + left.width + 1 := by
          rintro rfl
          rw [hright] at hends
          cases hends
        have hoperator : Balanced tokens NoComma (start + left.width) (start + left.width + 1) := by
          obtain ⟨o, rfl, -⟩ := TokenKind.exists_operator_of_between hbetween
          exact balanced_operator hk
        exact ihRight h.2.2 (by omega) hright (by omega) (by omega)
          ((h.1.balanced.trans hoperator).cancel hbalanced (by omega))

end Phrase

/-- A token that halts every operand continues none. -/
theorem Halts.not_continues
    {stop pos : Nat} {k : TokenKind} (h : Halts tokens stop 0 pos) (hpos : pos < stop)
    (hkind : kindAt tokens pos = some k) : ¬ k.Continues := by
  obtain ⟨hafter, hbetween⟩ := h k hpos hkind
  obtain ⟨hopens, hnone⟩ := hafter (Nat.zero_le _)
  rintro (hne | hne | hne)
  · exact hne hopens
  · exact hne hnone
  · obtain ⟨op, hop⟩ := Option.ne_none_iff_exists'.mp hne
    exact Nat.not_lt_zero _ (hbetween op hop)

/-- Before an end that is not passed, a phrase behind which nothing continues is the longest one
from its start. -/
theorem Phrase.width_le_of_halts
    {p q : Phrase} {stop : Nat} (hq : q.Spells tokens start)
    (hhalts : Halts tokens stop 0 (start + q.width)) (hp : p.Spells tokens start)
    (hstop : start + p.width ≤ stop) : p.width ≤ q.width := by
  by_contra hlt
  have hpos := q.width_pos
  obtain ⟨k, hk, hcontinues⟩ := exists_continues_of_spells hp (Nat.le_refl start)
    (heldBefore_self tokens start) (by omega : start < start + q.width) (by omega)
    (hq.balanced.mono fun _ _ => trivial) (heldBefore_of_spells hq (Nat.le_refl start))
  exact hhalts.not_continues (by omega) hk hcontinues

end Continuing

namespace Session

variable {s : Session} {range : TokenRange}

/-! ## The longest expression -/

/-- Where wrappers are collapsed, an expression is delivered as the collapsed tree of a phrase that
covers it. -/
theorem expression_delivers_simplified
    {p : Phrase} (hcovers : p.Covers s.tokens range) (hordered : p.Ordered) (hsingle : p.Single)
    (hnever : s.config.normalization = .never) (hsimplify : s.config.simplify = true)
    (hlimit : range.length + 1 ≤ s.config.limit) :
    s.Delivers (s.expression range) (p.tree range.start).simplified := by
  have hcontent : s.content range = .ok (p.tree range.start).bare :=
    (content_eq_ok_iff_of_never hnever hlimit _).mpr ⟨p, ⟨hcovers, hordered, hsingle⟩, rfl⟩
  have hdelivers := expression_delivers hcontent
  rwa [Config.finish, if_pos hsimplify, Tree.simplified_node, List.map_singleton,
    Tree.collapsed_wrapper rfl, Tree.simplified_bare] at hdelivers

/-- The longest expression at the start of a range ends within the range. Exactly up to its end,
reading without grouping delivers the text that it has once it is collapsed; up to any later end,
nothing is accepted in any configuration; and the token behind it belongs to no operand. -/
theorem longest_is_maximal
    (s : Session) (range : TokenRange) (hrange : range.Within s.tokens) (root : NodeId)
    (next : Nat) (after : Session) (h : s.longest range = (.ok (root, next), after)) :
    (range.start < next ∧ next ≤ range.stop) ∧
      (∀ u : Session, u.tokens = s.tokens → u.config.normalization = .never →
        u.config.simplify = true → range.length + 1 ≤ u.config.limit →
        ∃ (top : NodeId) (last : Session) (collapsed : Arena),
          u.expression ⟨range.start, next⟩ = (.ok top, last) ∧
            after.arena.simplify root = .ok collapsed ∧
            last.arena.sexpr s.tokens top = collapsed.sexpr s.tokens root) ∧
      (∀ u : Session, u.tokens = s.tokens → ∀ stop, next < stop → stop ≤ range.stop →
        (u.expression ⟨range.start, stop⟩).1.isOk = false) ∧
      (next < range.stop →
        ∃ k, kindAt s.tokens next = some k ∧ k.opens = none ∧ k.after = none ∧
          k.between = none) := by
  obtain ⟨p, q, hfound, hhalts, rfl, hgains⟩ := exists_found_and_gains_of_longest h
  obtain ⟨hspells, hordered, hsingle, -, -, htree, rfl, hstop⟩ := hfound
  have hpos := p.width_pos
  refine ⟨⟨by omega, hstop⟩, ?_, ?_, ?_⟩
  · intro u htokens hnever hsimplify hlimit
    have hcovers : p.Covers u.tokens ⟨range.start, range.start + p.width⟩ :=
      ⟨htokens ▸ hspells, rfl⟩
    have hdelivers := expression_delivers_simplified hcovers hordered hsingle hnever hsimplify <| by
      simp only [TokenRange.length] at hlimit ⊢
      omega
    obtain ⟨top, last, hanswer⟩ := exists_eq_of_isOk hdelivers.isOk
    obtain ⟨collapsed, hcollapsed, hkept⟩ := hgains.exists_simplify
    have hmem := List.mem_singleton_self q.simplified
    have hroot := (hkept.bears _ hmem).tree?_eq (Plot.nodup_ids_of_mem hkept.nodup hmem)
    rw [Plot.root_simplified, Plot.tree_simplified, htree] at hroot
    refine ⟨top, last, collapsed, hanswer, hcollapsed, ?_⟩
    rw [Arena.sexpr_eq_of_tree? _ _ _ _ (hdelivers.tree?_eq hanswer),
      Arena.sexpr_eq_of_tree? _ _ _ _ hroot]
  · intro u htokens stop hnext hlast
    by_contra hok
    rw [isOk_expression, Bool.not_eq_false] at hok
    cases hcontent : u.content ⟨range.start, stop⟩ with
    | error e => rw [hcontent] at hok; cases hok
    | ok t =>
        obtain ⟨longer, hlonger, -⟩ := exists_accepted_of_content hcontent
        obtain ⟨hlongerSpells, hend⟩ := hlonger.covers
        rw [htokens] at hlongerSpells
        dsimp only at hend hlongerSpells
        have hle := Phrase.width_le_of_halts hspells hhalts hlongerSpells (by omega)
        omega
  · intro hnext
    obtain ⟨k, hk⟩ := exists_kindAt (Nat.lt_of_lt_of_le hnext hrange.stop_le)
    have hnot := hhalts.not_continues hnext hk
    simp only [TokenKind.Continues, not_or, not_not] at hnot
    exact ⟨k, hk, hnot⟩

/-- The tokens of `-f.g(x) * y;`. -/
def sampleEnded : Array Token :=
  sampleTokens.push ⟨.punctuation .semicolon, ";", ⟨11, 12⟩, 1, 12, 1⟩

/-- The longest expression before a semicolon ends there. -/
theorem longest_is_maximal_sample :
    ∃ (root : NodeId) (after : Session),
      (start sampleEnded .standard).longest ⟨0, 10⟩ = (.ok (root, 9), after) ∧
        (∃ (top : NodeId) (last : Session) (collapsed : Arena),
          (start sampleEnded ⟨11, .never, true⟩).expression ⟨0, 9⟩ = (.ok top, last) ∧
            after.arena.simplify root = .ok collapsed ∧
            last.arena.sexpr sampleEnded top = collapsed.sexpr sampleEnded root) ∧
        ((start sampleEnded .standard).expression ⟨0, 10⟩).1.isOk = false := by
  obtain ⟨⟨root, next⟩, after, hlongest⟩ :=
    exists_eq_of_isOk (show ((start sampleEnded .standard).longest ⟨0, 10⟩).1.isOk = true by
      decide +kernel)
  obtain rfl : next = 9 := by
    have hnext : ((start sampleEnded .standard).longest ⟨0, 10⟩).1.toOption.map Prod.snd =
        some 9 := by decide +kernel
    rw [hlongest] at hnext
    exact Option.some.inj hnext
  obtain ⟨-, hexact, hlonger, -⟩ := longest_is_maximal (start sampleEnded .standard) ⟨0, 10⟩
    ⟨by decide, by decide⟩ root 9 after hlongest
  exact ⟨root, after, hlongest, hexact (start sampleEnded ⟨11, .never, true⟩) rfl rfl rfl
    (by decide), hlonger (start sampleEnded .standard) rfl 10 (by decide) (by decide)⟩

end Session

end ExprFront
