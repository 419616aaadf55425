import ExprFront.Proofs.Reading.Outcome

/-!
# The outcome for every phrase

The induction over phrases: each kind of phrase is read as its operands are. The
main statement is that reading tokens as they were written is decided by any
ordered phrase that they spell.
-/

namespace ExprFront

namespace Reading

variable {r : Reading}

/-! ## Commas in grouping parentheses -/

/-- A range with a comma outside brackets is not filled. -/
theorem fill_of_comma
    {p q : Phrase} {ps : List Phrase} (hclimbs : r.ClimbsTo p) (hordered : p.Ordered)
    {fuel depth start : Nat} (production : Production)
    (hspells : Phrase.SpellsParts r.tokens (p :: q :: ps) start)
    (hsize : start + Phrase.partsWidth (p :: q :: ps) ≤ r.tokens.size)
    (henough : 20 * (r.limit - depth) < fuel) :
    (r.fill fuel depth ⟨start, start + Phrase.partsWidth (p :: q :: ps)⟩
      production).Refused := by
  obtain ⟨fuel, rfl⟩ : ∃ more, fuel = more + 1 := ⟨fuel - 1, by omega⟩
  obtain ⟨hp, hcomma, -⟩ := hspells
  have hlt : start + p.width < start + Phrase.partsWidth (p :: q :: ps) := by
    simp only [Phrase.partsWidth, Phrase.laterWidth]
    omega
  rw [fill, fillWith_eq, dropOuterParens_of_spells_lt hp hlt]
  by_cases hdepth : r.limit ≤ depth
  · exact deeper_of_le hdepth (isRefusal_tooDeepAt _ _ _)
  rw [deeper_of_lt (by omega)]
  obtain ⟨fuel, rfl⟩ : ∃ more, fuel = more + 1 := ⟨fuel - 1, by omega⟩
  have hhalts : ∀ least, Halts r.tokens (start + Phrase.partsWidth (p :: q :: ps)) least
      (start + p.width) := fun least => halts_of_punctuation hcomma rfl
  have hplaced : r.Placed p (fuel + 1) (depth + 1) start
      (start + Phrase.partsWidth (p :: q :: ps)) 0 :=
    { spells := hp
      fits := Phrase.fits_zero hordered
      least_le := by omega
      stop_le := Nat.le_of_lt hlt
      le_size := hsize
      halts := fun f _ => hhalts f.least
      depth_le := by omega
      enough := by omega }
  exact fillInner_of_lt (hclimbs.outcome hplaced (hhalts 0)) (by omega) hlt
    (isRefusal_surplus (Nat.lt_of_lt_of_le hlt hsize))

/-- Grouping parentheses that do not hold a single part fill no range. -/
theorem fillsTo_parens_of_length_ne
    {parts : List Phrase} (hclimbs : ∀ p ∈ parts, r.ClimbsTo p) (hordered : ∀ p ∈ parts, p.Ordered)
    (hlength : parts.length ≠ 1) : r.FillsTo (.group .paren parts) := by
  intro fuel depth start production hspells henough
  obtain ⟨fuel, rfl⟩ : ∃ more, fuel = more + 1 := ⟨fuel - 1, by omega⟩
  refine ⟨fun hadmits => absurd (hadmits.1.1 rfl) hlength, fun _ => ?_⟩
  match parts with
  | [] => exact fill_of_nil hspells
  | [p] => exact absurd rfl hlength
  | p :: q :: ps =>
      have hsize := hspells.le_size
      simp only [Phrase.width] at hsize
      have hcomma := fill_of_comma (hclimbs p List.mem_cons_self)
        (hordered p List.mem_cons_self) production hspells.2.1 (by omega) henough
      have hnever : Attempt.Outcome False (r.fill (fuel + 1) depth
          ⟨start + 1, start + 1 + Phrase.partsWidth (p :: q :: ps)⟩ production)
          (.ok (p.tree start)) := ⟨False.elim, fun _ => hcomma⟩
      exact (fill_parens hspells (fun _ => isRefusal_tooDeepAt _ _ _) hnever).2 id

/-! ## Bracket groups -/

/-- Grouping parentheses are read as a subexpression if they hold a single part that fills
them. -/
theorem subexpression_of_spells
    {parts : List Phrase} (hclimbs : ∀ p ∈ parts, r.ClimbsTo p) (hfills : ∀ p ∈ parts, r.FillsTo p)
    (hordered : ∀ p ∈ parts, p.Ordered) {fuel depth start stop : Nat}
    (hspells : (Phrase.group .paren parts).Spells r.tokens start)
    (hstop : start + (Phrase.group .paren parts).width ≤ stop) (hdepth : depth ≤ r.limit)
    (henough : 20 * (r.limit - depth) < fuel) :
    Attempt.Outcome (r.Admits depth (.group .paren parts))
      (r.subexpression (r.fill fuel) depth start stop)
      (.ok ((Phrase.group .paren parts).tree start,
        start + (Phrase.group .paren parts).width)) := by
  rw [admits_group_iff hdepth]
  match parts with
  | [] => exact ⟨fun h => absurd (h.1 rfl) (by simp), fun _ => subexpression_of_nil hspells hstop⟩
  | [p] =>
      have hinner := hfills p List.mem_cons_self fuel depth (start + 1) .subexpression
        hspells.2.1.1 henough
      have hgood : ((Bracket.paren = .paren → [p].length = 1) ∧
          ∀ q ∈ [p], r.AdmitsRange depth q) ↔ r.AdmitsRange depth p := by simp
      rw [hgood]
      exact subexpression_of_cons hinner hspells hstop
  | p :: q :: ps =>
      have hsize := hspells.le_size
      simp only [Phrase.width] at hsize
      have hcomma := fill_of_comma (hclimbs p List.mem_cons_self)
        (hordered p List.mem_cons_self) .subexpression hspells.2.1 (by omega) henough
      have hnever : Attempt.Outcome False (r.fill fuel depth
          ⟨start + 1, start + 1 + Phrase.partsWidth (p :: q :: ps)⟩ .subexpression)
          (.ok (p.tree start)) := ⟨False.elim, fun _ => hcomma⟩
      refine ⟨fun h => absurd (h.1 rfl) (by simp), fun _ => ?_⟩
      exact (subexpression_of_cons hnever hspells hstop).2 id

/-! ## The cases of the induction -/

/-- A phrase that is read before anything grows is where the operand starts to grow. -/
theorem outcome_of_prefixed
    {p : Phrase} (hlast : p.last? = none) {fuel depth start stop : Nat} (least : Nat)
    (h : Attempt.Outcome (r.Admits depth p)
      (r.prefixed (r.climb fuel) (r.fill fuel) depth start stop)
      (.ok (p.tree start, start + p.width))) :
    ∃ steps, stop - (start + p.width) ≤ steps ∧
      Attempt.Outcome (r.Admits depth p) (r.climb (fuel + 1) depth start stop least)
        (r.grow (r.climb fuel) (r.fill fuel) depth stop least steps p.last? (p.tree start)
          (start + p.width)) := by
  refine ⟨stop - (start + p.width), Nat.le_refl _, fun hadmits => ?_, fun hnot => ?_⟩
  · rw [hlast]
    exact climb_of_prefixed (h.1 hadmits)
  · exact climb_of_prefixed_failsBy (h.2 hnot)

theorem climbsTo_leaf (kind : NodeKind) : r.ClimbsTo (.leaf kind) := by
  intro fuel depth start stop least h
  obtain ⟨k, hk, hleaf⟩ := Phrase.exists_of_spells_leaf h.spells
  refine outcome_of_prefixed rfl least ⟨fun _ => prefixed_of_leaf hk hleaf, fun hnot => ?_⟩
  exact absurd ⟨trivial, h.depth_le⟩ hnot

theorem climbsTo_group
    (hplain : ∀ index, r.isInserted index .lparen = false) {b : Bracket} {parts : List Phrase}
    (hclimbs : ∀ p ∈ parts, r.ClimbsTo p) (hfills : ∀ p ∈ parts, r.FillsTo p)
    (hordered : ∀ p ∈ parts, p.Ordered) : r.ClimbsTo (.group b parts) := by
  intro fuel depth start stop least h
  have henough : 20 * (r.limit - depth) < fuel := by
    have := h.enough
    have := h.least_le
    omega
  apply outcome_of_prefixed rfl
  by_cases hb : b = .paren
  · subst hb
    rw [prefixed_of_paren h.spells.1 (hplain start)]
    exact subexpression_of_spells hclimbs hfills hordered h.spells h.stop_le h.depth_le henough
  · obtain ⟨production, -, heq⟩ := prefixed_of_list h.spells.1 hb
    rw [heq, admits_group_iff h.depth_le]
    have hlist : Attempt.Outcome _ (r.list (r.fill fuel) depth start stop b b.nodeKind production)
        _ := list_of_spells (fill_parts hfills production h.spells.2.1.eachSpells henough) h.spells
      h.stop_le
    exact ⟨fun hadmits => hlist.1 hadmits.2,
      fun hnot => hlist.2 fun hparts => hnot ⟨fun hparen => absurd hparen hb, hparts⟩⟩

theorem climbsTo_before
    {op : Operation} {operand : Phrase} (ih : r.ClimbsTo operand)
    (hordered : (Phrase.before op operand).Ordered) : r.ClimbsTo (.before op operand) := by
  intro fuel depth start stop least h
  obtain ⟨k, hk, hbefore⟩ := Phrase.exists_of_spells_before h.spells
  have hpos := operand.width_pos
  have hend : start + (Phrase.before op operand).width = start + 1 + operand.width := by
    simp only [Phrase.width]
    omega
  have hstop := h.stop_le
  have hhalts := h.halts
  rw [hend] at hstop hhalts
  have hinner : Attempt.Outcome (r.Admits (depth + 1) operand)
      (r.deeper depth start (r.climb fuel (depth + 1) (start + 1) stop Operation.beforePriority))
      (.ok (operand.tree (start + 1), start + 1 + operand.width)) := by
    by_cases hlimit : r.limit ≤ depth
    · refine ⟨fun hadmits => ?_, fun _ => deeper_of_le hlimit (isRefusal_tooDeepAt _ _ _)⟩
      have := hadmits.2
      omega
    · have henough := h.enough
      have hleast := h.least_le
      obtain ⟨fuel, rfl⟩ : ∃ more, fuel = more + 1 := ⟨fuel - 1, by omega⟩
      rw [deeper_of_lt (by omega)]
      refine ih.outcome
        { spells := h.spells.2
          fits := hordered.1.fits hordered.2
          least_le := by decide
          stop_le := hstop
          le_size := h.le_size
          halts := fun f hf => hhalts f (List.mem_append_left _ hf)
          depth_le := by omega
          enough := by unfold Operation.beforePriority; omega } ?_
      exact hhalts (.before op) (by simp [Phrase.spine])
  apply outcome_of_prefixed rfl
  rw [admits_before_iff, prefixed_of_before hk hbefore (by omega)]
  constructor
  · intro hadmits
    simp only [hinner.1 hadmits, hend, Phrase.tree, Phrase.range_tree]
    rw [← hend]
    rfl
  · intro hnot
    obtain ⟨failure, herror, hrefusal⟩ := hinner.2 hnot
    exact ⟨failure, by rw [herror], hrefusal⟩

theorem climbsTo_after
    {operand : Phrase} {op : Operation} (ih : r.ClimbsTo operand)
    (hordered : (Phrase.after operand op).Ordered) : r.ClimbsTo (.after operand op) := by
  intro fuel depth start stop least h
  obtain ⟨k, hk, hafter⟩ := Phrase.exists_of_spells_after h.spells
  have hstop := h.stop_le
  simp only [Phrase.width] at hstop
  have hbetween : k.between = none := by
    cases hop : k.between with
    | none => rfl
    | some _ => simp [TokenKind.after_eq_none_of_between hop] at hafter
  obtain ⟨steps, hsteps, houtcome⟩ := ih fuel depth start stop least
    { spells := h.spells.1
      fits := h.fits.2
      least_le := h.least_le
      stop_le := by omega
      le_size := h.le_size
      halts := by
        intro f hf
        obtain ⟨left, rfl⟩ := hordered.1.eq_of_mem_spine hordered.2 hf
        exact halts_of_afterPriority_lt hk hbetween (by simp [Frame.least, Operation.afterPriority])
      depth_le := h.depth_le
      enough := h.enough }
  obtain ⟨steps, rfl⟩ : ∃ more, steps = more + 1 := ⟨steps - 1, by omega⟩
  refine ⟨steps, by simp only [Phrase.width]; omega, fun hadmits => ?_, fun hnot => ?_⟩
  · rw [houtcome.1 hadmits, grow_after (by omega) hk hafter h.fits.1]
    simp [Phrase.tree, Phrase.width, Phrase.last?, Nat.add_assoc]
  · exact houtcome.2 hnot

theorem climbsTo_applied
    {callee : Phrase} {b : Bracket} {parts : List Phrase} (ih : r.ClimbsTo callee)
    (hfills : ∀ p ∈ parts, r.FillsTo p) (hordered : (Phrase.applied callee b parts).Ordered) :
    r.ClimbsTo (.applied callee b parts) := by
  intro fuel depth start stop least h
  obtain ⟨hcallee, hgroup⟩ := Phrase.spells_applied_iff.mp h.spells
  have hstop := h.stop_le
  rw [Phrase.width_applied] at hstop
  have hpos := (Phrase.group b parts).width_pos
  have henough : 20 * (r.limit - depth) < fuel := by
    have := h.enough
    have := h.least_le
    omega
  obtain ⟨steps, hsteps, houtcome⟩ := ih fuel depth start stop least
    { spells := hcallee
      fits := h.fits.2
      least_le := h.least_le
      stop_le := by omega
      le_size := h.le_size
      halts := by
        intro f hf
        obtain ⟨left, rfl⟩ := hordered.1.eq_of_mem_spine hordered.2.1 hf
        exact halts_of_afterPriority_lt hgroup.1 rfl
          (by simp [Frame.least, Operation.afterPriority])
      depth_le := h.depth_le
      enough := h.enough }
  obtain ⟨steps, rfl⟩ : ∃ more, steps = more + 1 := ⟨steps - 1, by omega⟩
  have hend : start + callee.width + (Phrase.group b parts).width ≤ stop := by omega
  have happlied : Attempt.Outcome _
      (r.applied (r.fill fuel) depth (callee.tree start) (start + callee.width) stop b) _ :=
    applied_of_spells (fill_parts hfills _ hgroup.2.1.eachSpells henough) hgroup hend
  rw [admits_applied_iff]
  refine ⟨steps, by rw [Phrase.width_applied]; omega, fun hadmits => ?_, fun hnot => ?_⟩
  · rw [houtcome.1 hadmits.1, grow_applied (by omega) hgroup.1 h.fits.1, happlied.1 hadmits.2]
    simp [Phrase.tree, Phrase.width, Phrase.last?, Nat.add_assoc]
  · by_cases hadmits : r.Admits depth callee
    · obtain ⟨failure, herror, hrefusal⟩ := happlied.2 fun hparts => hnot ⟨hadmits, hparts⟩
      rw [houtcome.1 hadmits, grow_applied (by omega) hgroup.1 h.fits.1, herror]
      exact ⟨failure, rfl, hrefusal⟩
    · exact houtcome.2 hadmits

/-- The right operand of an operation is read up to its end. -/
theorem rightOperand_of_placed
    {op : Operation} {right : Phrase} (ih : r.ClimbsTo right)
    (hbetween : op.entry.fixity = .between)
    (hright : right.RightOf op) (hordered : right.Ordered) {fuel depth start stop least : Nat}
    (hspells : right.Spells r.tokens (start + 1)) (hstop : start + 1 + right.width ≤ stop)
    (hsize : stop ≤ r.tokens.size) (hdepth : depth ≤ r.limit) (hle : least ≤ op.priority)
    (henough : 20 * (r.limit - depth) + 18 ≤ fuel + 1 + least)
    (hhalts : ∀ f ∈ right.spine, Halts r.tokens stop f.least (start + 1 + right.width))
    (hend : Halts r.tokens stop op.rightLeast (start + 1 + right.width)) :
    Attempt.Outcome (r.Admits (if op.associativity = .right then depth + 1 else depth) right)
      (r.rightOperand (r.climb fuel) depth start stop op)
      (.ok (right.tree (start + 1), start + 1 + right.width)) := by
  have hfits := hright.fits hbetween hordered
  have hpriority := op.priority_le_memberAccessPriority
  unfold Operation.memberAccessPriority at hpriority
  have hleast := op.rightLeast_le_succ
  by_cases hassoc : op.associativity = .right
  · rw [Operation.rightLeast_of_right hassoc] at hfits hend
    rw [rightOperand, if_pos hassoc, if_pos hassoc]
    by_cases hlimit : r.limit ≤ depth
    · refine ⟨fun hadmits => ?_, fun _ => deeper_of_le hlimit (isRefusal_tooDeepAt _ _ _)⟩
      have := hadmits.2
      omega
    · obtain ⟨fuel, rfl⟩ : ∃ more, fuel = more + 1 := ⟨fuel - 1, by omega⟩
      rw [deeper_of_lt (by omega)]
      exact ih.outcome ⟨hspells, hfits, by omega, hstop, hsize, hhalts, by omega, by omega⟩ hend
  · rw [Operation.rightLeast_of_ne_right hassoc] at hfits hend
    rw [rightOperand, if_neg hassoc, if_neg hassoc]
    obtain ⟨fuel, rfl⟩ : ∃ more, fuel = more + 1 := ⟨fuel - 1, by omega⟩
    exact ih.outcome ⟨hspells, hfits, by omega, hstop, hsize, hhalts, hdepth, by omega⟩ hend

theorem climbsTo_between
    {left right : Phrase} {op : Operation} (ihLeft : r.ClimbsTo left) (ihRight : r.ClimbsTo right)
    (hordered : (Phrase.between left op right).Ordered) :
    r.ClimbsTo (.between left op right) := by
  intro fuel depth start stop least h
  obtain ⟨k, hk, hbetween⟩ := Phrase.exists_of_spells_between h.spells
  obtain ⟨hfixity, hleftOf, hrightOf, hleft, hright⟩ := hordered
  have hpos := right.width_pos
  have hwidth : start + (Phrase.between left op right).width =
      start + left.width + 1 + right.width := by
    simp only [Phrase.width]
    omega
  have hstop := h.stop_le
  have hhalts := h.halts
  rw [hwidth] at hstop hhalts
  obtain ⟨steps, hsteps, houtcome⟩ := ihLeft fuel depth start stop least
    { spells := h.spells.1
      fits := h.fits.2
      least_le := h.least_le
      stop_le := by omega
      le_size := h.le_size
      halts := fun f hf => halts_of_between hk hbetween
        (hleftOf.closedBy_of_mem_spine hfixity hleft hf).lt_least
      depth_le := h.depth_le
      enough := h.enough }
  obtain ⟨steps, rfl⟩ : ∃ more, steps = more + 1 := ⟨steps - 1, by omega⟩
  have hrightOperand := rightOperand_of_placed ihRight hfixity hrightOf hright h.spells.2.2 hstop
    h.le_size h.depth_le h.fits.1 h.enough (fun f hf => hhalts f (List.mem_append_left _ hf))
    (hhalts (.between left op) (by simp [Phrase.spine]))
  have hmore : start + left.width + 1 < stop := by omega
  have hclashes := hleftOf.clashes_eq_false hleft
  rw [admits_between_iff, hwidth]
  refine ⟨steps, by omega, fun hadmits => ?_, fun hnot => ?_⟩
  · rw [houtcome.1 hadmits.1, grow_between hmore hk hbetween h.fits.1 hclashes,
      hrightOperand.1 hadmits.2]
    simp [Attempt.after, Phrase.tree, Phrase.last?, Nat.add_assoc, Nat.add_comm,
      Nat.add_left_comm]
  · by_cases hadmits : r.Admits depth left
    · obtain ⟨failure, herror, hrefusal⟩ := (hrightOperand.2 fun h => hnot ⟨hadmits, h⟩).after
        (left.tree start)
      rw [houtcome.1 hadmits, grow_between hmore hk hbetween h.fits.1 hclashes, herror]
      exact ⟨failure, rfl, hrefusal⟩
    · exact houtcome.2 hadmits

/-! ## The main statement -/

/-- Where an ordered phrase is spelled, the phrase decides what is read. -/
theorem climbsTo_and_fillsTo
    (hplain : ∀ index, r.isInserted index .lparen = false) {p : Phrase} (hordered : p.Ordered) :
    r.ClimbsTo p ∧ r.FillsTo p := by
  induction p with
  | leaf kind => exact ⟨climbsTo_leaf kind, (climbsTo_leaf kind).fillsTo hordered rfl⟩
  | group b parts ih =>
      have hparts := Phrase.allOrdered_iff.mp hordered
      have hclimbs : ∀ p ∈ parts, r.ClimbsTo p := fun p hp => (ih p hp (hparts p hp)).1
      have hfills : ∀ p ∈ parts, r.FillsTo p := fun p hp => (ih p hp (hparts p hp)).2
      have hgroup := climbsTo_group hplain (b := b) hclimbs hfills hparts
      refine ⟨hgroup, ?_⟩
      cases hp : (Phrase.group b parts).isParens with
      | false => exact hgroup.fillsTo hordered hp
      | true =>
          obtain ⟨parts', heq⟩ := Phrase.isParens_iff.mp hp
          cases heq
          by_cases hlength : parts.length = 1
          · obtain ⟨p, rfl⟩ := List.length_eq_one_iff.mp hlength
            exact (hfills p List.mem_cons_self).parens
          · exact fillsTo_parens_of_length_ne hclimbs hparts hlength
  | before op operand ih =>
      have h := climbsTo_before (ih hordered.2).1 hordered
      exact ⟨h, h.fillsTo hordered rfl⟩
  | after operand op ih =>
      have h := climbsTo_after (ih hordered.2).1 hordered
      exact ⟨h, h.fillsTo hordered rfl⟩
  | applied callee b parts ih ihParts =>
      have hparts := Phrase.allOrdered_iff.mp hordered.2.2
      have h := climbsTo_applied (ih hordered.2.1).1
        (fun p hp => (ihParts p hp (hparts p hp)).2) hordered
      exact ⟨h, h.fillsTo hordered rfl⟩
  | between left op right ihLeft ihRight =>
      obtain ⟨-, -, -, hleft, hright⟩ := id hordered
      have h := climbsTo_between (ihLeft hleft).1 (ihRight hright).1 hordered
      exact ⟨h, h.fillsTo hordered rfl⟩

/-- An ordered phrase that covers a range decides what is read there. -/
theorem whole_of_covers
    {tokens : Array Token} {limit : Nat} {p : Phrase} {range : TokenRange}
    (hcovers : p.Covers tokens range) (hordered : p.Ordered) (production : Production) :
    Attempt.Outcome ((plain tokens limit).AdmitsRange 0 p)
      ((plain tokens limit).whole range production) (.ok (p.tree range.start).bare) := by
  have hfuel : 20 * (limit - 0) < recursionBound limit := by
    unfold recursionBound
    omega
  have hfills : (plain tokens limit).FillsTo p :=
    (climbsTo_and_fillsTo (fun _ => rfl) hordered).2
  have houtcome := hfills _ 0 range.start production hcovers.spells hfuel
  rwa [hcovers.stop_eq] at houtcome

end Reading

end ExprFront
