import ExprFront.Proofs.Phrase.Order
import ExprFront.Proofs.Reading.Steps

/-!
# What is read where a phrase is spelled

Where an ordered phrase is spelled and the token after it belongs to none of its
operands, the outcome of reading is decided by the phrase: its tree, if its
grouping parentheses hold single parts and its nesting stays within the limit,
and a failure otherwise. A phrase in an operand need not be all that is read:
reading goes on from its tree. By which errors reading may fail is left open
where it does not matter.

The induction is on the phrase, for operands and ranges at once. An operand of a
tighter operation is read with a higher least priority, and every other operand
or part one level deeper; so the bound on recursion need not grow with the
number of tokens.
-/

namespace ExprFront

/-- The attempt goes on like another one if a condition holds, and fails by one of the given errors
otherwise. -/
def Attempt.OutcomeBy
    {α : Type} (bad : ParseError → Prop) (good : Prop) (attempt continued : Attempt α) : Prop :=
  (good → attempt = continued) ∧ (¬ good → attempt.FailsBy bad)

/-- The attempt goes on like another one if a condition holds, and is refused otherwise. -/
abbrev Attempt.Outcome {α : Type} (good : Prop) (attempt continued : Attempt α) : Prop :=
  Attempt.OutcomeBy ParseError.IsRefusal good attempt continued

namespace Reading

variable {r : Reading} {bad : ParseError → Prop}

/-! ## Nesting within the limit -/

/-- The phrase can be read as an operand at a depth. -/
def Admits (r : Reading) (depth : Nat) (p : Phrase) : Prop :=
  p.Single ∧ depth + p.level ≤ r.limit

/-- The phrase can fill a range at a depth. -/
def AdmitsRange (r : Reading) (depth : Nat) (p : Phrase) : Prop :=
  p.Single ∧ depth + p.fillLevel ≤ r.limit

theorem admits_before_iff
    {depth : Nat} {op : Operation} {operand : Phrase} :
    r.Admits depth (.before op operand) ↔ r.Admits (depth + 1) operand := by
  simp only [Admits, Phrase.Single, Phrase.level]
  apply and_congr_right
  intro _
  omega

theorem admits_between_iff
    {depth : Nat} {op : Operation} {left right : Phrase} :
    r.Admits depth (.between left op right) ↔
      r.Admits depth left ∧
        r.Admits (if op.associativity = .right then depth + 1 else depth) right := by
  simp only [Admits, Phrase.Single, Phrase.level]
  split <;> constructor
  · rintro ⟨⟨hleft, hright⟩, hlevel⟩
    exact ⟨⟨hleft, by omega⟩, hright, by omega⟩
  · rintro ⟨⟨hleft, hl⟩, hright, hr⟩
    exact ⟨⟨hleft, hright⟩, by omega⟩
  · rintro ⟨⟨hleft, hright⟩, hlevel⟩
    exact ⟨⟨hleft, by omega⟩, hright, by omega⟩
  · rintro ⟨⟨hleft, hl⟩, hright, hr⟩
    exact ⟨⟨hleft, hright⟩, by omega⟩

theorem admits_applied_iff
    {depth : Nat} {callee : Phrase} {b : Bracket} {parts : List Phrase} :
    r.Admits depth (.applied callee b parts) ↔
      r.Admits depth callee ∧ ∀ p ∈ parts, r.AdmitsRange depth p := by
  simp only [Admits, AdmitsRange, Phrase.Single, Phrase.level, Phrase.allSingle_iff]
  have hlevel : depth + max callee.level (Phrase.partsLevel parts) ≤ r.limit ↔
      depth + callee.level ≤ r.limit ∧ ∀ p ∈ parts, depth + p.fillLevel ≤ r.limit := by
    constructor
    · intro h
      have hparts : Phrase.partsLevel parts ≤ r.limit - depth := by omega
      refine ⟨by omega, fun p hp => ?_⟩
      have := Phrase.partsLevel_le_iff.mp hparts p hp
      omega
    · rintro ⟨hcallee, hparts⟩
      have : Phrase.partsLevel parts ≤ r.limit - depth :=
        Phrase.partsLevel_le_iff.mpr fun p hp => by have := hparts p hp; omega
      omega
  rw [hlevel]
  constructor
  · rintro ⟨⟨hcallee, hparts⟩, hl, hr⟩
    exact ⟨⟨hcallee, hl⟩, fun p hp => ⟨hparts p hp, hr p hp⟩⟩
  · rintro ⟨⟨hcallee, hl⟩, hparts⟩
    exact ⟨⟨hcallee, fun p hp => (hparts p hp).1⟩, hl, fun p hp => (hparts p hp).2⟩

theorem admits_group_iff
    {depth : Nat} {b : Bracket} {parts : List Phrase} (hdepth : depth ≤ r.limit) :
    r.Admits depth (.group b parts) ↔
      (b = .paren → parts.length = 1) ∧ ∀ p ∈ parts, r.AdmitsRange depth p := by
  have hleaf : r.Admits depth (.leaf .number) := ⟨trivial, hdepth⟩
  have happlied : r.Admits depth (.applied (.leaf .number) b parts) ↔
      r.Admits depth (.leaf .number) ∧ ∀ p ∈ parts, r.AdmitsRange depth p := admits_applied_iff
  simp only [hleaf, true_and] at happlied
  rw [← happlied]
  simp only [Admits, Phrase.Single, Phrase.level, true_and, Nat.zero_max]
  exact and_assoc

theorem admitsRange_iff
    {depth : Nat} {p : Phrase} (hp : p.isParens = false) :
    r.AdmitsRange depth p ↔ r.Admits (depth + 1) p := by
  simp only [AdmitsRange, Admits, Phrase.fillLevel, hp, Bool.false_eq_true, if_false]
  apply and_congr_right
  intro _
  omega

theorem admitsRange_parens_iff
    {depth : Nat} {p : Phrase} :
    r.AdmitsRange depth (.group .paren [p]) ↔ r.AdmitsRange depth p := by
  simp [AdmitsRange, Phrase.fillLevel_parens, Phrase.Single, Phrase.AllSingle]

/-! ## The statement -/

/-- A phrase is spelled at an index where an operand is read with a least priority, nothing that
follows belongs to it, and the bound on recursion is large enough. -/
structure Placed (r : Reading) (p : Phrase) (fuel depth start stop least : Nat) : Prop where
  spells : p.Spells r.tokens start
  fits : p.Fits least
  least_le : least ≤ 16
  stop_le : start + p.width ≤ stop
  le_size : stop ≤ r.tokens.size
  halts : ∀ f ∈ p.spine, Halts r.tokens stop f.least (start + p.width)
  depth_le : depth ≤ r.limit
  enough : 20 * (r.limit - depth) + 18 ≤ fuel + least

/-- Where the phrase is placed, reading an operand goes on from its tree. -/
def ClimbsTo (r : Reading) (p : Phrase) : Prop :=
  ∀ fuel depth start stop least, r.Placed p (fuel + 1) depth start stop least →
    ∃ steps, stop - (start + p.width) ≤ steps ∧
      Attempt.Outcome (r.Admits depth p) (r.climb (fuel + 1) depth start stop least)
        (r.grow (r.climb fuel) (r.fill fuel) depth stop least steps p.last? (p.tree start)
          (start + p.width))

/-- A range that the phrase spells is filled by its tree. -/
def FillsTo (r : Reading) (p : Phrase) : Prop :=
  ∀ fuel depth start production, p.Spells r.tokens start → 20 * (r.limit - depth) < fuel →
    Attempt.Outcome (r.AdmitsRange depth p)
      (r.fill fuel depth ⟨start, start + p.width⟩ production) (.ok (p.tree start).bare)

theorem climb_of_prefixed
    {fuel depth start stop least next : Nat} {t : Tree}
    (h : r.prefixed (r.climb fuel) (r.fill fuel) depth start stop = .ok (t, next)) :
    r.climb (fuel + 1) depth start stop least =
      r.grow (r.climb fuel) (r.fill fuel) depth stop least (stop - next) none t next := by
  rw [climb, climbWith, h]

theorem climb_of_prefixed_failsBy
    {fuel depth start stop least : Nat}
    (h : (r.prefixed (r.climb fuel) (r.fill fuel) depth start stop).FailsBy bad) :
    (r.climb (fuel + 1) depth start stop least).FailsBy bad := by
  obtain ⟨failure, herror, hbad⟩ := h
  exact ⟨failure, by rw [climb, climbWith, herror], hbad⟩

/-- If a phrase at the end of an operand is read, so is the operand. -/
theorem ClimbsTo.outcome
    {p : Phrase} (h : r.ClimbsTo p) {fuel depth start stop least : Nat}
    (hplaced : r.Placed p (fuel + 1) depth start stop least)
    (hhalts : Halts r.tokens stop least (start + p.width)) :
    Attempt.Outcome (r.Admits depth p) (r.climb (fuel + 1) depth start stop least)
      (.ok (p.tree start, start + p.width)) := by
  obtain ⟨steps, -, houtcome⟩ := h fuel depth start stop least hplaced
  rwa [grow_of_halts hhalts fun hlt => Nat.lt_of_lt_of_le hlt hplaced.le_size] at houtcome

/-! ## Lists -/

/-- Ranges are filled one after the other if a condition holds, and the first that is not filled
fails by one of the given errors otherwise. -/
def FillsEach
    (bad : ParseError → Prop) (fillPart : TokenRange → Attempt Tree) (good : Prop)
    (ranges : List TokenRange) (trees : List Tree) : Prop :=
  (good → List.Forall₂ (fun part t => fillPart part = .ok t) ranges trees) ∧
    (¬ good → ∃ front part back, ranges = front ++ part :: back ∧
      (∀ q ∈ front, ∃ t, fillPart q = .ok t) ∧ (fillPart part).FailsBy bad)

theorem FillsEach.cons
    {fillPart : TokenRange → Attempt Tree} {good more : Prop} {range : TokenRange}
    {ranges : List TokenRange} {t : Tree} {trees : List Tree}
    (hhead : Attempt.OutcomeBy bad good (fillPart range) (.ok t))
    (htail : FillsEach bad fillPart more ranges trees) :
    FillsEach bad fillPart (good ∧ more) (range :: ranges) (t :: trees) := by
  constructor
  · rintro ⟨hgood, hmore⟩
    exact .cons (hhead.1 hgood) (htail.1 hmore)
  · intro hnot
    by_cases hgood : good
    · obtain ⟨front, part, back, rfl, hfront, hpart⟩ :=
        htail.2 fun hmore => hnot ⟨hgood, hmore⟩
      refine ⟨range :: front, part, back, rfl, ?_, hpart⟩
      exact List.forall_mem_cons.mpr ⟨⟨t, hhead.1 hgood⟩, hfront⟩
    · exact ⟨[], range, ranges, rfl, by simp, hhead.2 hgood⟩

/-- Parts that fill their ranges fill them one after the other. -/
theorem fill_parts
    {parts : List Phrase} (hfills : ∀ p ∈ parts, r.FillsTo p) {fuel depth start : Nat}
    (production : Production) (hspells : Phrase.EachSpells r.tokens parts start)
    (henough : 20 * (r.limit - depth) < fuel) :
    FillsEach ParseError.IsRefusal (fun part => r.fill fuel depth part production)
      (∀ p ∈ parts, r.AdmitsRange depth p) (Phrase.partRanges parts start)
      (Phrase.partTrees parts start) := by
  induction parts generalizing start with
  | nil => exact ⟨fun _ => .nil, fun h => absurd (by simp) h⟩
  | cons p ps ih =>
      have hhead := hfills p List.mem_cons_self fuel depth start production hspells.1 henough
      have htail := ih (fun q hq => hfills q (List.mem_cons_of_mem p hq)) hspells.2
      rw [List.forall_mem_cons]
      exact FillsEach.cons hhead htail

/-- A bracket group is read as a list if its parts fill their ranges. -/
theorem list_of_spells
    {fill : Filler} {b : Bracket} {parts : List Phrase} {depth start stop : Nat} {kind : NodeKind}
    {production : Production} {good : Prop} {trees : List Tree}
    (hparts : FillsEach bad (fun part => fill depth part production) good
      (Phrase.partRanges parts (start + 1)) trees)
    (hspells : (Phrase.group b parts).Spells r.tokens start)
    (hstop : start + (Phrase.group b parts).width ≤ stop) :
    Attempt.OutcomeBy bad good (r.list fill depth start stop b kind production)
      (.ok (.node kind ⟨start, start + (Phrase.group b parts).width⟩ trees,
        start + (Phrase.group b parts).width)) := by
  rw [list_of_resolve (Phrase.resolve_of_spells hspells hstop)]
  constructor
  · intro hgood
    simp [Scope.range, items_of_forall₂ (hparts.1 hgood)]
  · intro hnot
    obtain ⟨front, part, back, hranges, hfront, hpart⟩ := hparts.2 hnot
    have hitems : (items (fun part => fill depth part production) kind
        ⟨start, start + (Phrase.group b parts).width⟩ []
        (Phrase.partRanges parts (start + 1))).FailsBy bad := by
      rw [hranges]
      exact items_of_failsBy hfront hpart []
    obtain ⟨failure, hitems, hbad⟩ := hitems
    exact ⟨failure, by simp [Scope.range, hitems], hbad⟩

/-- A bracket group after an operand is read with it. -/
theorem applied_of_spells
    {fill : Filler} {b : Bracket} {parts : List Phrase} {depth start stop : Nat} {callee : Tree}
    {good : Prop} {trees : List Tree}
    (hparts : FillsEach bad (fun part => fill depth part (groupRole b).2.2) good
      (Phrase.partRanges parts (start + 1)) trees)
    (hspells : (Phrase.group b parts).Spells r.tokens start)
    (hstop : start + (Phrase.group b parts).width ≤ stop) :
    Attempt.OutcomeBy bad good (r.applied fill depth callee start stop b)
      (.ok (.node (.operation (groupRole b).1)
        ⟨callee.range.start, start + (Phrase.group b parts).width⟩
        [callee, .node (groupRole b).2.1 ⟨start, start + (Phrase.group b parts).width⟩ trees],
        start + (Phrase.group b parts).width)) := by
  have hlist : Attempt.OutcomeBy bad good
      (r.list fill depth start stop b (groupRole b).2.1 (groupRole b).2.2) _ :=
    list_of_spells hparts hspells hstop
  constructor
  · intro hgood
    simp only [applied, hlist.1 hgood, Attempt.after]
  · intro hnot
    obtain ⟨failure, herror, hbad⟩ := (hlist.2 hnot).after callee
    exact ⟨failure, by simp only [applied, herror], hbad⟩

/-! ## Grouping parentheses -/

theorem interior_parens
    (start : Nat) (parts : List Phrase) :
    (⟨start, start + (Phrase.group .paren parts).width⟩ : Scope).interior =
      ⟨start + 1, start + 1 + Phrase.partsWidth parts⟩ := by
  simp only [Scope.interior, Phrase.width, TokenRange.mk.injEq, true_and]
  omega

/-- Empty grouping parentheses are not read. -/
theorem subexpression_of_nil
    {fill : Filler} {depth start stop : Nat}
    (hspells : (Phrase.group .paren []).Spells r.tokens start)
    (hstop : start + (Phrase.group .paren []).width ≤ stop) :
    (r.subexpression fill depth start stop).Refused := by
  have hmatching := Phrase.matching_of_spells hspells hstop
  have hempty : (⟨start, start + (Phrase.group .paren []).width⟩ : Scope).interior.isEmpty =
      true := by
    simp [interior_parens, TokenRange.isEmpty, Phrase.partsWidth]
  simp only [subexpression, hmatching, Attempt.ofScope, liftScope, Attempt.lift, bind,
    Except.bind, hempty, if_true]
  exact Attempt.failsBy_fail (isRefusal_misplacedAt _ _ _ _)

/-- Grouping parentheses are read as a subexpression if their interior is filled. -/
theorem subexpression_of_cons
    {fill : Filler} {depth start stop : Nat} {p : Phrase} {ps : List Phrase} {good : Prop}
    {t : Tree}
    (hfill : Attempt.OutcomeBy bad good
      (fill depth ⟨start + 1, start + 1 + Phrase.partsWidth (p :: ps)⟩ .subexpression) (.ok t))
    (hspells : (Phrase.group .paren (p :: ps)).Spells r.tokens start)
    (hstop : start + (Phrase.group .paren (p :: ps)).width ≤ stop) :
    Attempt.OutcomeBy bad good (r.subexpression fill depth start stop)
      (.ok (.node .subexpression ⟨start, start + (Phrase.group .paren (p :: ps)).width⟩ [t],
        start + (Phrase.group .paren (p :: ps)).width)) := by
  have hpos := p.width_pos
  have hnonempty : (⟨start, start + (Phrase.group .paren (p :: ps)).width⟩ :
      Scope).interior.isEmpty = false := by
    simp only [interior_parens, TokenRange.isEmpty, Phrase.partsWidth, decide_eq_false_iff_not]
    omega
  rw [subexpression_of_matching (Phrase.matching_of_spells hspells hstop) hnonempty,
    interior_parens]
  constructor
  · intro hgood
    rw [hfill.1 hgood]
    rfl
  · intro hnot
    obtain ⟨failure, herror, hbad⟩ := hfill.2 hnot
    exact ⟨failure, by rw [herror], hbad⟩

/-! ## Ranges -/

/-- Nothing is dropped from a range that goes on after the phrase that starts it. -/
theorem dropOuterParens_of_spells_lt
    {p : Phrase} {start stop steps : Nat} {production : Production}
    (hspells : p.Spells r.tokens start) (hlt : start + p.width < stop) :
    r.dropOuterParens production steps ⟨start, stop⟩ = .ok ⟨start, stop⟩ := by
  by_cases hfirst : kindAt r.tokens start = some (.punctuation .lparen)
  · have hleading : ∃ parts, (Phrase.group .paren parts).Spells r.tokens start ∧
        (Phrase.group .paren parts).width ≤ p.width := by
      cases hp : p.isParens with
      | true =>
          obtain ⟨parts, rfl⟩ := Phrase.isParens_iff.mp hp
          exact ⟨parts, hspells, Nat.le_refl _⟩
      | false =>
          obtain ⟨parts, hparts, hwidth⟩ := Phrase.exists_parens_of_spells hspells hp hfirst
          exact ⟨parts, hparts, Nat.le_of_lt hwidth⟩
    obtain ⟨parts, hparts, hwidth⟩ := hleading
    exact dropOuterParens_of_lt (Phrase.matching_of_spells hparts (by omega)) (by omega)
  · exact dropOuterParens_of_ne hfirst

/-- Nothing is dropped from a range that a phrase without parentheses around it spells. -/
theorem dropOuterParens_of_spells
    {p : Phrase} {start steps : Nat} {production : Production}
    (hspells : p.Spells r.tokens start) (hp : p.isParens = false) :
    r.dropOuterParens production steps ⟨start, start + p.width⟩ =
      .ok ⟨start, start + p.width⟩ := by
  by_cases hfirst : kindAt r.tokens start = some (.punctuation .lparen)
  · obtain ⟨parts, hparts, hwidth⟩ := Phrase.exists_parens_of_spells hspells hp hfirst
    exact dropOuterParens_of_lt (Phrase.matching_of_spells hparts (by omega)) (by omega)
  · exact dropOuterParens_of_ne hfirst

theorem deeper_of_le
    {α : Type} {depth index : Nat} {inner : Attempt α} (hdepth : r.limit ≤ depth)
    (htooDeep : bad (.tooDeepAt r.tokens r.limit index)) :
    (r.deeper depth index inner).FailsBy bad := by
  rw [deeper, if_pos hdepth]
  exact Attempt.failsBy_fail htooDeep

theorem deeper_of_lt
    {α : Type} {depth index : Nat} {inner : Attempt α} (hdepth : depth < r.limit) :
    r.deeper depth index inner = inner := by
  rw [deeper, if_neg (by omega)]

theorem AdmitsRange.depth_lt
    {depth : Nat} {p : Phrase} (h : r.AdmitsRange depth p) (hp : p.isParens = false) :
    depth < r.limit := by
  have := ((admitsRange_iff hp).mp h).2
  omega

/-- A token that is left over is refused. -/
theorem isRefusal_surplus
    {production : Production} {index : Nat} (hindex : index < r.tokens.size) :
    (r.surplus production index).IsRefusal := by
  obtain ⟨k, hk⟩ := exists_kindAt hindex
  unfold surplus
  rw [kind?_eq, hk]
  dsimp only
  split
  · exact isRefusal_misplacedAt _ _ _ _
  · split
    · exact isRefusal_misplacedAt _ _ _ _
    · exact isRefusal_misplacedAt _ _ _ _

/-- A range is not filled by an operand that ends before it does. -/
theorem fillInner_of_lt
    {climb : Climber} {depth start middle stop : Nat} {production : Production} {good : Prop}
    {t : Tree}
    (hclimb : Attempt.OutcomeBy bad good (climb (depth + 1) start stop 0) (.ok (t, middle)))
    (hstart : start < stop) (hlt : middle < stop) (hsurplus : bad (r.surplus production middle)) :
    (r.fillInner climb depth production ⟨start, stop⟩).FailsBy bad := by
  have hnonempty : (⟨start, stop⟩ : TokenRange).isEmpty = false := by
    simp [TokenRange.isEmpty, hstart]
  rw [fillInner, hnonempty]
  simp only [Bool.false_eq_true, if_false]
  by_cases hgood : good
  · simp only [hclimb.1 hgood, if_pos hlt]
    exact Attempt.failsBy_failAfter hsurplus
  · obtain ⟨failure, herror, hbad⟩ := hclimb.2 hgood
    exact ⟨failure, by simp only [herror], hbad⟩

/-- A range that a phrase without parentheses around it spells is filled if the phrase is read
one level deeper. -/
theorem fill_of_climb
    {p : Phrase} {fuel depth start : Nat} {production : Production} {good : Prop} {t : Tree}
    (hspells : p.Spells r.tokens start) (hp : p.isParens = false)
    (hgood : good → depth < r.limit) (htooDeep : bad (.tooDeepAt r.tokens r.limit start))
    (hclimb : depth < r.limit → Attempt.OutcomeBy bad good
      (r.climb fuel (depth + 1) start (start + p.width) 0) (.ok (t, start + p.width))) :
    Attempt.OutcomeBy bad good (r.fill (fuel + 1) depth ⟨start, start + p.width⟩ production)
      (.ok t) := by
  rw [fill, fillWith_eq]
  by_cases hdepth : r.limit ≤ depth
  · refine ⟨fun h => ?_, fun _ => deeper_of_le hdepth htooDeep⟩
    have := hgood h
    omega
  · rw [deeper_of_lt (by omega), dropOuterParens_of_spells hspells hp]
    have houtcome := hclimb (by omega)
    have hpos := p.width_pos
    have hnonempty : (⟨start, start + p.width⟩ : TokenRange).isEmpty = false := by
      simp [TokenRange.isEmpty]
      omega
    constructor
    · intro h
      simp only [fillInner, hnonempty, houtcome.1 h, Bool.false_eq_true, if_false,
        Nat.lt_irrefl]
    · intro hnot
      obtain ⟨failure, herror, hbad⟩ := houtcome.2 hnot
      refine ⟨failure, ?_, hbad⟩
      simp only [fillInner, hnonempty, herror, Bool.false_eq_true, if_false]

/-- A phrase without parentheses around it fills a range as it is read as an operand. -/
theorem ClimbsTo.fillsTo
    {p : Phrase} (h : r.ClimbsTo p) (hordered : p.Ordered) (hp : p.isParens = false) :
    r.FillsTo p := by
  intro fuel depth start production hspells henough
  obtain ⟨fuel, rfl⟩ : ∃ more, fuel = more + 1 := ⟨fuel - 1, by omega⟩
  rw [Phrase.bare_tree_of_not_isParens hp]
  apply fill_of_climb hspells hp (fun hadmits => hadmits.depth_lt hp) (isRefusal_tooDeepAt _ _ _)
  intro hdepth
  obtain ⟨fuel, rfl⟩ : ∃ more, fuel = more + 1 := ⟨fuel - 1, by omega⟩
  rw [admitsRange_iff hp]
  have hplaced : r.Placed p (fuel + 1) (depth + 1) start (start + p.width) 0 :=
    { spells := hspells
      fits := Phrase.fits_zero hordered
      least_le := by omega
      stop_le := Nat.le_refl _
      le_size := hspells.le_size
      halts := fun f _ => halts_of_le (Nat.le_refl _)
      depth_le := by omega
      enough := by omega }
  exact h.outcome hplaced (halts_of_le (Nat.le_refl _))

theorem matching_parens
    {parts : List Phrase} {start : Nat}
    (hspells : (Phrase.group .paren parts).Spells r.tokens start) :
    Scope.matching r.tokens ⟨start, start + (Phrase.partsWidth parts + 2)⟩ .paren =
      .ok ⟨start, start + (Phrase.partsWidth parts + 2)⟩ :=
  Phrase.matching_of_spells hspells (Nat.le_refl _)

/-- Parentheses around all of a range are dropped. -/
theorem fill_parens
    {p : Phrase} {ps : List Phrase} {fuel depth start : Nat} {production : Production}
    {good : Prop} {t : Tree} (hspells : (Phrase.group .paren (p :: ps)).Spells r.tokens start)
    (htooDeep : ∀ index, bad (.tooDeepAt r.tokens r.limit index))
    (hinner : Attempt.OutcomeBy bad good
      (r.fill (fuel + 1) depth ⟨start + 1, start + 1 + Phrase.partsWidth (p :: ps)⟩ production)
      (.ok t)) :
    Attempt.OutcomeBy bad good
      (r.fill (fuel + 1) depth ⟨start, start + (Phrase.group .paren (p :: ps)).width⟩ production)
      (.ok t) := by
  have hpos : 0 < Phrase.partsWidth (p :: ps) := Nat.add_pos_left p.width_pos _
  have hdrop : r.dropOuterParens production
      (⟨start, start + (Phrase.group .paren (p :: ps)).width⟩ : TokenRange).length
        ⟨start, start + (Phrase.group .paren (p :: ps)).width⟩ =
      r.dropOuterParens production
        (⟨start + 1, start + 1 + Phrase.partsWidth (p :: ps)⟩ : TokenRange).length
        ⟨start + 1, start + 1 + Phrase.partsWidth (p :: ps)⟩ := by
    have hlength : (⟨start, start + (Phrase.partsWidth (p :: ps) + 2)⟩ : TokenRange).length =
        Phrase.partsWidth (p :: ps) + 1 + 1 := by
      simp only [TokenRange.length]
      omega
    have hstop : start + (Phrase.partsWidth (p :: ps) + 2) - 1 =
        start + 1 + Phrase.partsWidth (p :: ps) := by omega
    rw [Phrase.width, hlength, dropOuterParens_of_eq hspells.1 (matching_parens hspells),
      if_neg (by omega), hstop]
    apply dropOuterParens_of_length_le
    · simp only [TokenRange.length]
      omega
    · exact Nat.le_refl _
  rw [fill, fillWith_eq] at hinner
  rw [fill, fillWith_eq, hdrop]
  by_cases hdepth : r.limit ≤ depth
  · refine ⟨fun hgood => ?_, fun _ => deeper_of_le hdepth (htooDeep _)⟩
    rw [deeper, if_pos hdepth] at hinner
    cases hinner.1 hgood
  · rw [deeper_of_lt (by omega)] at hinner ⊢
    exact hinner

/-- Empty parentheses fill no range. -/
theorem fill_of_nil
    {fuel depth start : Nat} {production : Production}
    (hspells : (Phrase.group .paren []).Spells r.tokens start) :
    (r.fill (fuel + 1) depth ⟨start, start + (Phrase.group .paren []).width⟩
      production).Refused := by
  have hlength : (⟨start, start + 2⟩ : TokenRange).length = 1 + 1 := by
    simp only [TokenRange.length]
    omega
  have hmatching := matching_parens hspells
  simp only [Phrase.width, Phrase.partsWidth, Nat.zero_add] at hmatching ⊢
  rw [fill, fillWith_eq]
  by_cases hdepth : r.limit ≤ depth
  · exact deeper_of_le hdepth (isRefusal_tooDeepAt _ _ _)
  · rw [deeper_of_lt (by omega), hlength, dropOuterParens_of_eq hspells.1 hmatching,
      if_pos (by omega)]
    exact Attempt.failsBy_fail (isRefusal_misplacedAt _ _ _ _)

theorem FillsTo.parens
    {p : Phrase} (h : r.FillsTo p) : r.FillsTo (.group .paren [p]) := by
  intro fuel depth start production hspells henough
  obtain ⟨fuel, rfl⟩ : ∃ more, fuel = more + 1 := ⟨fuel - 1, by omega⟩
  rw [admitsRange_parens_iff, Phrase.bare_tree_parens]
  exact fill_parens hspells (fun _ => isRefusal_tooDeepAt _ _ _)
    (h (fuel + 1) depth (start + 1) production hspells.2.1.1 henough)

end Reading

end ExprFront
