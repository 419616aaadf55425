import ExprFront.Proofs.Grouping.Parallel
import ExprFront.Proofs.Reading.Parallel
import ExprFront.Proofs.Session.Routes

/-!
# Expressions taken out of their tokens

An expression is read in the middle of other tokens as it is read when its
tokens stand alone: it is accepted in both places or in neither, and the trees
differ by the place only. If it is refused, then for the same reason, with one
exception. Where the first token is an operator that starts no operand, the
token before the range is looked at, and if that is an operator too, it is said
to lack its operand, although it is no part of the expression.
-/

namespace ExprFront

/-- Errors of the same kind, apart from where they point at. -/
inductive ParseError.Alike : ParseError → ParseError → Prop
  | lexical (e e' : LexError) : Alike (.lexical e) (.lexical e')
  | scope {e e' : ScopeError} (h : e.code = e'.code) : Alike (.scope e) (.scope e')
  | misplaced {e e' : ExpressionError} (h : e.kind = e'.kind) : Alike (.misplaced e) (.misplaced e')
  | nestingTooDeep (limit limit' : Nat) (spot spot' : Spot) :
      Alike (.nestingTooDeep limit spot) (.nestingTooDeep limit' spot')
  | fault (f f' : Fault) : Alike (.fault f) (.fault f')

theorem ParseError.Alike.refl
    (e : ParseError) : e.Alike e := by
  cases e with
  | lexical e => exact .lexical e e
  | scope e => exact .scope rfl
  | misplaced e => exact .misplaced rfl
  | nestingTooDeep limit spot => exact .nestingTooDeep _ _ _ _
  | fault f => exact .fault f f

/-- The range starts with an operator that starts no operand, and an operator stands before it. -/
def LooksBack (tokens : Array Token) (range : TokenRange) : Prop :=
  (0 < range.start ∧ (kindAt tokens (range.start - 1)).any TokenKind.isOperator = true) ∧
    range.start < range.stop ∧
    ∃ k, kindAt tokens range.start = some k ∧ k.before = none ∧ k.isOperator = true

/-! ## Moved trees -/

theorem Tree.collapsed_map_moved
    (offset : Nat) (kind : NodeKind) (range : TokenRange) (ts : List Tree) :
    collapsed kind (range.moved offset) (ts.map (Tree.moved offset)) =
      (collapsed kind range ts).moved offset := by
  unfold collapsed
  cases kind.isWrapper with
  | false => simp
  | true =>
      cases ts with
      | nil => simp
      | cons t ts => cases ts <;> simp

/-- Wrappers are collapsed wherever they stand. -/
theorem Tree.simplified_moved
    (offset : Nat) (t : Tree) : (t.moved offset).simplified = t.simplified.moved offset := by
  induction t with
  | node kind range ts ih =>
      have hts : (ts.map (Tree.moved offset)).map simplified =
          (ts.map simplified).map (Tree.moved offset) := by
        rw [List.map_map, List.map_map]
        exact List.map_congr_left ih
      rw [moved_node, simplified_node, simplified_node, hts, collapsed_map_moved]

theorem Config.finish_moved
    (config : Config) (offset : Nat) (t : Tree) :
    config.finish (t.moved offset) = (config.finish t).moved offset := by
  unfold finish
  split
  · exact t.simplified_moved offset
  · rfl

/-! ## Reading -/

namespace Reading

/-- Without a level to spare nothing is read. -/
theorem whole_of_limit_eq_zero
    {r : Reading} (hlimit : r.limit = 0) (range : TokenRange) (production : Production) :
    r.whole range production = .fail (.tooDeepAt r.tokens r.limit range.start) := by
  have hfuel : recursionBound r.limit = 63 + 1 := by
    rw [hlimit, recursionBound]
  rw [whole, hfuel, fill, fillWith, deeper, if_pos (Nat.le_of_eq hlimit)]

/-- An operator that starts no operand fills no range. -/
theorem whole_of_noOperand
    (r : Reading) {range : TokenRange} {k : TokenKind} (hlimit : 0 < r.limit)
    (hstart : range.start < range.stop) (hkind : r.kind? range.start = some k)
    (hbefore : k.before = none) (hoperator : k.isOperator = true) (production : Production) :
    r.whole range production = .fail (r.noOperand k range.start) := by
  obtain ⟨o, rfl⟩ : ∃ o, k = .operator o := by
    cases k with
    | operator o => exact ⟨o, rfl⟩
    | _ => cases hoperator
  have hfuel : recursionBound r.limit = 64 * r.limit + 62 + 1 + 1 := by
    simp only [recursionBound]
    omega
  have hlength : range.length = range.length - 1 + 1 := by
    simp only [TokenRange.length]
    omega
  have hdrop : r.dropOuterParens production range.length range = .ok range := by
    rw [hlength, dropOuterParens, if_pos (.inr (by simp [hkind]))]
  have hempty : range.isEmpty = false := by
    simpa [TokenRange.isEmpty] using hstart
  have hclimb : ∀ fuel, r.climb (fuel + 1) 1 range.start range.stop 0 =
      .fail (r.noOperand (.operator o) range.start) := by
    intro fuel
    simp only [climb, climbWith, prefixed, hkind, hbefore]
    rfl
  rw [whole, hfuel, fill, fillWith, deeper, if_neg (by omega), hdrop]
  simp only [Attempt.lift, hempty, bind, Except.bind, hclimb]
  rfl

/-- In the same window and under the same limit, readings go side by side to their ends. -/
theorem beside_extract
    {tokens : Array Token} {range : TokenRange} (hrange : range.Within tokens)
    (hfirst : ¬ LooksBack tokens range) (limit : Nat) (hnonempty : range.start < range.stop) :
    Beside (plain tokens limit) (plain (tokens.extract range.start range.stop) limit)
      (fun _ => False) range.start range.length where
  window := .extract hrange
  isInserted_eq _ _ := rfl
  limit := .inl rfl
  first k hpos hoperator hkind hbefore := by
    by_contra hnot
    exact hfirst ⟨⟨hpos, hoperator⟩, hnonempty, k, hkind, hbefore, by simpa using hnot⟩

end Reading

theorem TokenRange.moved_length
    {range : TokenRange} (h : range.start ≤ range.stop) :
    (⟨0, range.length⟩ : TokenRange).moved range.start = range := by
  obtain ⟨start, stop⟩ := range
  simp only [moved, length, TokenRange.mk.injEq]
  dsimp only at h
  omega

/-- Whether a group stands after an operand is seen in the range alone. -/
theorem hasGroupAfterOperand_extract
    {tokens : Array Token} {range : TokenRange} (hrange : range.Within tokens) :
    hasGroupAfterOperand tokens range =
      hasGroupAfterOperand (tokens.extract range.start range.stop) ⟨0, range.length⟩ := by
  have hwindow := Window.extract hrange
  have hlength : (⟨0, range.length⟩ : TokenRange).length = range.length := Nat.sub_zero _
  have hranges : List.range' (range.start + 1) (range.length - 1) =
      (List.range' 1 (range.length - 1)).map (range.start + ·) := by
    rw [List.map_add_range']
  unfold hasGroupAfterOperand
  rw [hlength, hranges, List.any_map, Bool.eq_iff_iff, List.any_eq_true, List.any_eq_true]
  refine exists_congr fun i => and_congr_right fun hi => ?_
  obtain ⟨hpos, hbound⟩ := List.mem_range'_1.mp hi
  have hprevious : range.start + i - 1 = range.start + (i - 1) := by omega
  rw [Function.comp_apply, hwindow.getElem?_eq i (by omega), hprevious,
    hwindow.getElem?_eq (i - 1) (by omega)]

/-- An expression that is accepted where its tokens stand alone starts with no such operator. -/
theorem not_looksBack_of_whole
    {tokens : Array Token} {range : TokenRange} (hrange : range.Within tokens) {limit : Nat}
    {production : Production} {t : Tree}
    (h : (Reading.plain (tokens.extract range.start range.stop) limit).whole ⟨0, range.length⟩
      production = .ok t) : ¬ LooksBack tokens range := by
  rintro ⟨-, hnonempty, k, hkind, hbefore, hoperator⟩
  have hstart : (⟨0, range.length⟩ : TokenRange).start < range.length := by
    simp only [TokenRange.length]
    omega
  have hfirst := ((Window.extract hrange).kindAt_eq hstart).symm.trans hkind
  rcases Nat.eq_zero_or_pos limit with hzero | hpos
  · rw [Reading.whole_of_limit_eq_zero hzero] at h
    cases h
  · have hfail := (Reading.plain (tokens.extract range.start range.stop) limit).whole_of_noOperand
      hpos hstart hfirst hbefore hoperator production
    cases h.symm.trans hfail

theorem Reading.grouped_moved
    (g : Grouped) (offset limit : Nat) : grouped (g.moved offset) limit = grouped g limit := by
  simp only [grouped, Grouped.tokens, Grouped.moved, mk.injEq, Array.map_map, and_true]
  refine ⟨rfl, ?_⟩
  funext index mark
  rw [Grouped.isInserted, Grouped.isInserted, Array.getElem?_map]
  cases g.entries[index]? <;> simp [GroupedToken.moved]

namespace Session

variable {s : Session} {range : TokenRange}

/-- A session over the tokens of a range alone. -/
def excerpt (s : Session) (range : TokenRange) : Session :=
  start (s.tokens.extract range.start range.stop) s.config

theorem normalizes_excerpt
    (hrange : range.Within s.tokens) :
    (s.excerpt range).normalizes ⟨0, range.length⟩ = s.normalizes range := by
  simp only [normalizes, excerpt, start]
  rw [hasGroupAfterOperand_extract hrange]

/-- The same tree but for the place, or the same error. -/
def Corresponds (s : Session) (range : TokenRange) : Prop :=
  (∃ t, (s.excerpt range).content ⟨0, range.length⟩ = .ok t ∧
      s.content range = .ok (t.moved range.start)) ∨
    ∃ e, (s.excerpt range).content ⟨0, range.length⟩ = .error e ∧ s.content range = .error e

/-- Reading as it was written, in the middle of other tokens and alone. -/
theorem tracks_reading
    (hrange : range.Within s.tokens) (hnonempty : range.start < range.stop)
    (hfirst : ¬ LooksBack s.tokens range) (production : Production) :
    Attempt.Tracks (fun _ => False) range.start (Tree.moved range.start)
      (s.reading.whole range production)
      ((s.excerpt range).reading.whole ⟨0, range.length⟩ production) := by
  have hstart : (⟨0, range.length⟩ : TokenRange).start < range.length := by
    simp only [TokenRange.length]
    omega
  have htracks := Reading.tracks_whole
    (Reading.beside_extract hrange hfirst s.config.limit hnonempty) (.inl rfl) hstart
    (Nat.le_refl _) production
  rwa [TokenRange.moved_length hrange.start_le] at htracks

theorem corresponds_of_direct
    (hrange : range.Within s.tokens) (hnonempty : range.start < range.stop)
    (hfirst : ¬ LooksBack s.tokens range) (hroute : s.normalizes range = false) :
    s.Corresponds range := by
  have htracks := tracks_reading hrange hnonempty hfirst .expression
  unfold Corresponds content
  rw [normalizes_excerpt hrange, hroute]
  simp only [Bool.false_eq_true, if_false]
  generalize s.reading.whole range .expression = attempt at htracks ⊢
  generalize (s.excerpt range).reading.whole ⟨0, range.length⟩ .expression = other at htracks ⊢
  cases htracks with
  | ok h => exact .inl ⟨_, rfl, by rw [h]⟩
  | error h => exact .inr ⟨_, rfl, by rw [h]; rfl⟩
  | early h => exact h.elim

/-- What is accepted by way of its grouped form is the same tree in both places. -/
theorem content_of_excerpt
    (hrange : range.Within s.tokens) (hnonempty : range.start < range.stop) {t : Tree}
    (hcontent : (s.excerpt range).content ⟨0, range.length⟩ = .ok t)
    (hdeep : ∀ most spot,
      groupTokens s.tokens range s.config.limit ≠ .error (.nestingTooDeep most spot)) :
    s.content range = .ok (t.moved range.start) := by
  obtain ⟨p, hp, rfl⟩ := exists_accepted_of_content hcontent
  have hwhole := Reading.whole_of_accepted hp .expression
  have htracks := tracks_reading hrange hnonempty (not_looksBack_of_whole hrange hwhole) .expression
  have hread : s.reading.whole range .expression =
      .ok ((p.tree 0).bare.moved range.start) := by
    rw [show (s.excerpt range).reading.whole _ _ = _ from hwhole] at htracks
    generalize s.reading.whole range .expression = attempt at htracks ⊢
    cases htracks with
    | ok h => rw [h]
    | early h => exact h.elim
  obtain ⟨q, hq, htree⟩ := Reading.exists_accepted_of_whole hread
  rw [htree]
  exact content_of_accepted hq fun _ => hdeep

theorem content_of_group_error
    {e : ParseError} (hroute : s.normalizes range = true)
    (hgroup : groupTokens s.tokens range s.config.limit = .error e) :
    s.content range = .error e := by
  rw [content, if_pos hroute, hgroup]

theorem content_of_grouped_error
    {g : Grouped} {failure : Failure} (hroute : s.normalizes range = true)
    (hgroup : groupTokens s.tokens range s.config.limit = .ok g)
    (hwhole : (Reading.grouped g s.config.limit).whole ⟨0, g.entries.size⟩ .grouping =
      .error failure) : s.content range = .error failure.error := by
  simp only [content, hroute, if_true, hgroup, hwhole]

theorem content_of_grouped
    {g : Grouped} {t : Tree} (hroute : s.normalizes range = true)
    (hgroup : groupTokens s.tokens range s.config.limit = .ok g)
    (hwhole : (Reading.grouped g s.config.limit).whole ⟨0, g.entries.size⟩ .grouping = .ok t) :
    s.content range = .ok (t.mapRanges g.sourceRange) := by
  simp only [content, hroute, if_true, hgroup, hwhole]

theorem corresponds_of_normalized
    (hrange : range.Within s.tokens) (hnonempty : range.start < range.stop)
    (hroute : s.normalizes range = true) : s.Corresponds range := by
  have hstart : (⟨0, range.length⟩ : TokenRange).start < range.length := by
    simp only [TokenRange.length]
    omega
  have hgroup : Follows (fun _ => False) Eq (fun g g' => g = Grouped.moved range.start g')
      (groupTokens s.tokens ((⟨0, range.length⟩ : TokenRange).moved range.start) s.config.limit)
      (groupTokens (s.excerpt range).tokens ⟨0, range.length⟩ (s.excerpt range).config.limit) :=
    follows_groupTokens (.extract hrange) (.inl rfl) (.inl rfl) hstart (Nat.le_refl _)
  have hroute' := (normalizes_excerpt hrange).trans hroute
  rw [TokenRange.moved_length hrange.start_le] at hgroup
  generalize hlarge : groupTokens s.tokens range s.config.limit = large at hgroup
  generalize hsmall : groupTokens (s.excerpt range).tokens ⟨0, range.length⟩
    (s.excerpt range).config.limit = small at hgroup
  cases hgroup with
  | early h => exact h.elim
  | error heq =>
      subst heq
      exact .inr ⟨_, content_of_group_error hroute' hsmall, content_of_group_error hroute hlarge⟩
  | @ok g g' heq =>
      subst heq
      have hentries : (g'.moved range.start).entries.size = g'.entries.size := by
        simp [Grouped.moved]
      cases hwhole : (Reading.grouped g' s.config.limit).whole ⟨0, g'.entries.size⟩ .grouping with
      | error failure =>
          have hmoved : (Reading.grouped (g'.moved range.start) s.config.limit).whole
              ⟨0, (g'.moved range.start).entries.size⟩ .grouping = .error failure := by
            rw [Reading.grouped_moved, hentries, hwhole]
          exact .inr ⟨_, content_of_grouped_error hroute' hsmall hwhole,
            content_of_grouped_error hroute hlarge hmoved⟩
      | ok t =>
          have hcontent := content_of_grouped hroute' hsmall hwhole
          refine .inl ⟨_, hcontent, content_of_excerpt hrange hnonempty hcontent ?_⟩
          simp [hlarge]

/-- An expression and its excerpt have corresponding contents, unless it is read as it was written
and looks back. -/
theorem corresponds_of_not_looksBack
    (hrange : range.Within s.tokens) (hnonempty : range.start < range.stop)
    (h : s.normalizes range = true ∨ ¬ LooksBack s.tokens range) : s.Corresponds range := by
  cases hroute : s.normalizes range with
  | true => exact corresponds_of_normalized hrange hnonempty hroute
  | false =>
      rw [hroute] at h
      exact corresponds_of_direct hrange hnonempty (h.resolve_left (by simp)) hroute

/-- Nothing is read in an empty range, in both places for the same reason. -/
theorem exists_alike_of_isEmpty
    (hrange : range.Within s.tokens) (hempty : range.isEmpty = true) :
    ∃ e e', s.content range = .error e ∧
      (s.excerpt range).content ⟨0, range.length⟩ = .error e' ∧ e.Alike e' := by
  have hzero : (⟨0, range.length⟩ : TokenRange).isEmpty = true := by
    rw [TokenRange.isEmpty_iff_length_eq_zero] at hempty ⊢
    simp [TokenRange.length] at hempty ⊢
    omega
  simp only [content, normalizes_excerpt hrange]
  cases s.normalizes range with
  | true =>
      simp only [if_true, groupTokens_of_isEmpty _ hempty, groupTokens_of_isEmpty _ hzero]
      exact ⟨_, _, rfl, rfl, .misplaced rfl⟩
  | false =>
      simp only [Bool.false_eq_true, if_false, Reading.whole_of_isEmpty _ hempty,
        Reading.whole_of_isEmpty _ hzero]
      refine ⟨_, _, rfl, rfl, ?_⟩
      have hlimit : (s.excerpt range).reading.limit = s.reading.limit := rfl
      rw [hlimit]
      split
      · exact .nestingTooDeep _ _ _ _
      · exact .misplaced rfl

/-- Where the expression looks back, the operator before it is said to lack its operand; alone,
the expression starts with an invalid token. -/
theorem content_of_looksBack
    (hrange : range.Within s.tokens) (hlooks : LooksBack s.tokens range)
    (hroute : s.normalizes range = false) (hlimit : 0 < s.config.limit) :
    s.content range =
        .error (.misplacedAt s.tokens .missingOperand .primary range.start) ∧
      (s.excerpt range).content ⟨0, range.length⟩ =
        .error (.misplacedAt (s.excerpt range).tokens .invalidStart .primary 0) := by
  obtain ⟨⟨hpos, hbehind⟩, hnonempty, k, hkind, hbefore, hoperator⟩ := hlooks
  have hstart : (⟨0, range.length⟩ : TokenRange).start < range.length := by
    simp only [TokenRange.length]
    omega
  have hfirst := ((Window.extract hrange).kindAt_eq hstart).symm.trans hkind
  have hlarge := s.reading.whole_of_noOperand hlimit hnonempty hkind hbefore hoperator .expression
  have hsmall := (s.excerpt range).reading.whole_of_noOperand hlimit hstart hfirst hbefore
    hoperator .expression
  constructor
  · simp only [content, hroute, Bool.false_eq_true, if_false, hlarge, Attempt.fail]
    rw [Reading.noOperand, if_pos ⟨⟨hpos, hbehind⟩, hoperator⟩]
    rfl
  · simp only [content, normalizes_excerpt hrange, hroute, Bool.false_eq_true, if_false, hsmall,
      Attempt.fail]
    rw [Reading.noOperand, if_neg (by simp)]
    rfl

/-- Without a level to spare the expression nests too deep in both places. -/
theorem content_of_limit_eq_zero
    (hroute : s.normalizes range = false) (hlimit : s.config.limit = 0) :
    s.content range = .error (.tooDeepAt s.tokens s.config.limit range.start) := by
  have hwhole := Reading.whole_of_limit_eq_zero (r := s.reading) hlimit range .expression
  simp only [content, hroute, Bool.false_eq_true, if_false, hwhole, Attempt.fail]
  rfl

/-- The expression is read as it was written and looks back at the token before it. -/
def SeesBefore (s : Session) (range : TokenRange) : Prop :=
  s.normalizes range = false ∧ 0 < s.config.limit ∧ LooksBack s.tokens range

/-- In both places the same tree, or errors that are alike unless the token before is seen. -/
theorem excerpt_cases
    (hrange : range.Within s.tokens) :
    (∃ t, (s.excerpt range).content ⟨0, range.length⟩ = .ok t ∧
        s.content range = .ok (t.moved range.start)) ∨
      ∃ e e', (s.excerpt range).content ⟨0, range.length⟩ = .error e' ∧
        s.content range = .error e ∧ (e.Alike e' ↔ ¬ s.SeesBefore range) := by
  rcases Nat.lt_or_ge range.start range.stop with hnonempty | hempty
  -- Grouping never looks before the range, and reading does so only for its first token.
  · by_cases hsame : s.normalizes range = true ∨ ¬ LooksBack s.tokens range
    · have hnot : ¬ s.SeesBefore range := by
        rintro ⟨hroute, -, hlooks⟩
        rcases hsame with hnormalizes | hfirst
        · rw [hroute] at hnormalizes
          cases hnormalizes
        · exact hfirst hlooks
      rcases corresponds_of_not_looksBack hrange hnonempty hsame with htree | ⟨e, hsmall, hlarge⟩
      · exact .inl htree
      · exact .inr ⟨e, e, hsmall, hlarge, iff_of_true (.refl e) hnot⟩
    · obtain ⟨hnormalizes, hnot⟩ := not_or.mp hsame
      have hroute : s.normalizes range = false := by simpa using hnormalizes
      have hlooks := not_not.mp hnot
      right
      rcases Nat.eq_zero_or_pos s.config.limit with hzero | hpos
      · refine ⟨_, _, content_of_limit_eq_zero ((normalizes_excerpt hrange).trans hroute) hzero,
          content_of_limit_eq_zero hroute hzero,
          iff_of_true (.nestingTooDeep _ _ _ _) fun hsees => ?_⟩
        exact Nat.lt_irrefl _ (hzero ▸ hsees.2.1)
      · obtain ⟨hlarge, hsmall⟩ := content_of_looksBack hrange hlooks hroute hpos
        refine ⟨_, _, hsmall, hlarge, iff_of_false ?_ (not_not.mpr ⟨hroute, hpos, hlooks⟩)⟩
        rintro ⟨⟩
        rename_i hkind
        cases hkind
  · obtain ⟨e, e', hlarge, hsmall, halike⟩ :=
      exists_alike_of_isEmpty hrange (by simpa [TokenRange.isEmpty] using hempty)
    refine .inr ⟨e, e', hsmall, hlarge, iff_of_true halike fun hsees => ?_⟩
    exact absurd hsees.2.2.2.1 (Nat.not_lt.mpr hempty)

/-- An expression is accepted in the middle of other tokens exactly if it is where its tokens stand
alone, and the trees differ by the place only. If both are refused, the errors are alike exactly
if the token before the expression is not seen. -/
theorem expression_excerpt
    (s : Session) (range : TokenRange) (hrange : range.Within s.tokens) :
    (s.expression range).1.isOk = ((s.excerpt range).expression ⟨0, range.length⟩).1.isOk ∧
      (∀ (root root' : NodeId) (after after' : Session),
        s.expression range = (.ok root, after) →
        (s.excerpt range).expression ⟨0, range.length⟩ = (.ok root', after') →
        ∃ t, after'.arena.tree? root' = some t ∧
          after.arena.tree? root = some (t.moved range.start)) ∧
      ∀ e e' : ParseError, (s.expression range).1 = .error e →
        ((s.excerpt range).expression ⟨0, range.length⟩).1 = .error e' →
        (e.Alike e' ↔ ¬ s.SeesBefore range) := by
  rcases excerpt_cases hrange with ⟨t, hsmall, hlarge⟩ | ⟨e, e', hsmall, hlarge, halike⟩
  · have hdelivers := expression_delivers hlarge
    have hdelivers' := expression_delivers hsmall
    refine ⟨by rw [hdelivers.isOk, hdelivers'.isOk], fun root root' after after' h h' => ?_,
      fun e e' h => ?_⟩
    · refine ⟨_, hdelivers'.tree?_eq h', ?_⟩
      have htree := hdelivers.tree?_eq h
      have hnode : (Tree.node .expression ⟨0, range.length⟩ [t]).moved range.start =
          .node .expression range [t.moved range.start] := by
        rw [Tree.moved_node, TokenRange.moved_length hrange.start_le, List.map_singleton]
      rw [htree, ← hnode, Config.finish_moved]
      rfl
    · have hok := hdelivers.isOk
      rw [h] at hok
      cases hok
  · have herror := expression_error hlarge
    have herror' := expression_error hsmall
    refine ⟨by rw [herror, herror']; rfl, fun root root' after after' h => ?_,
      fun _ _ h h' => ?_⟩
    · rw [h] at herror
      cases herror
    · rw [herror, Except.error.injEq] at h
      rw [herror', Except.error.injEq] at h'
      rwa [← h, ← h']

/-- The call in the middle of an expression has the tree that it has alone, three tokens later. -/
theorem expression_excerpt_sample :
    TokenRange.Within ⟨3, 7⟩ sampleTokens ∧
      ((start sampleTokens .standard).expression ⟨3, 7⟩).1.isOk = true ∧
      ∀ (root root' : NodeId) (after after' : Session),
        (start sampleTokens .standard).expression ⟨3, 7⟩ = (.ok root, after) →
        ((start sampleTokens .standard).excerpt ⟨3, 7⟩).expression ⟨0, 4⟩ = (.ok root', after') →
        ∃ t, after'.arena.tree? root' = some t ∧ after.arena.tree? root = some (t.moved 3) := by
  have hrange : TokenRange.Within ⟨3, 7⟩ sampleTokens := ⟨by decide, by decide⟩
  obtain ⟨-, htrees, -⟩ := expression_excerpt (start sampleTokens .standard) ⟨3, 7⟩ hrange
  exact ⟨hrange, by decide +kernel, htrees⟩

/-- Two operators, the second of which starts no operand. -/
def sampleOperators : Array Token :=
  #[⟨.operator .plus, "+", ⟨0, 1⟩, 1, 1, 1⟩, ⟨.operator .star, "*", ⟨2, 3⟩, 1, 3, 1⟩]

/-- After another operator, an operator that stands alone is refused for a reason that it does not
have where no token stands before it. -/
theorem expression_not_alike_excerpt :
    ∃ e e', ((start sampleOperators .standard).expression ⟨1, 2⟩).1 = .error e ∧
      (((start sampleOperators .standard).excerpt ⟨1, 2⟩).expression ⟨0, 1⟩).1 = .error e' ∧
      ¬ e.Alike e' := by
  refine ⟨.misplaced ⟨.missingOperand, .primary, ⟨"*", 1, 3, ⟨2, 3⟩⟩⟩,
    .misplaced ⟨.invalidStart, .primary, ⟨"*", 1, 3, ⟨2, 3⟩⟩⟩, rfl, rfl, ?_⟩
  rintro ⟨⟩
  rename_i hkind
  cases hkind

end Session

end ExprFront
