import ExprFront.Proofs.Grouping.Wrapped
import ExprFront.Proofs.Reading.Outcome

/-!
# What is read where a phrase stands grouped

Inserted parentheses decide nothing and cost nothing: where an ordered phrase
stands grouped, reading has the outcome that the phrase has where it is written.
The tree has the nodes of the phrase; `Phrase.mirror` gives their ranges, which
leave out the inserted parentheses around an operand. Reading fails only where
it nests too deep and where grouping parentheses hold a comma: inserted
parentheses are closed wherever they open.

The applications on the left edge of a phrase open one directly after the other
and are read in a loop, so they use up none of the bound on recursion. The proof
follows them from the inside out: reading the innermost operand and closing all
groups is closing the groups around a phrase, once the phrase is read.
-/

namespace ExprFront

namespace Phrase

mutual

/-- The syntax tree that is read where the phrase stands grouped from an index on. -/
def mirror : Phrase → (start : Nat) → Tree
  | leaf kind, start => .leaf kind ⟨start, start + 1⟩
  | group b parts, start =>
      .node b.nodeKind ⟨start, start + (group b (wrappedAll parts)).width⟩
        (mirrorParts parts (start + 1))
  | before op operand, start =>
      .node (.operation op) ⟨start + 1, (operand.mirror (start + 2)).range.stop⟩
        [operand.mirror (start + 2)]
  | after operand op, start =>
      .node (.operation op)
        ⟨(operand.mirror (start + 1)).range.start, start + 1 + operand.wrapped.width + 1⟩
        [operand.mirror (start + 1)]
  | applied callee b parts, start =>
      .node (.operation (Reading.groupRole b).1)
        ⟨(callee.mirror (start + 1)).range.start,
          start + 1 + callee.wrapped.width + (group b (wrappedAll parts)).width⟩
        [callee.mirror (start + 1),
          .node (Reading.groupRole b).2.1
            ⟨start + 1 + callee.wrapped.width,
              start + 1 + callee.wrapped.width + (group b (wrappedAll parts)).width⟩
            (mirrorParts parts (start + 1 + callee.wrapped.width + 1))]
  | between left op right, start =>
      .node (.operation op)
        ⟨(left.mirror (start + 1)).range.start,
          (right.mirror (start + 1 + left.wrapped.width + 1)).range.stop⟩
        [left.mirror (start + 1), right.mirror (start + 1 + left.wrapped.width + 1)]

/-- The syntax trees that are read for the parts of a group. -/
def mirrorParts : List Phrase → (start : Nat) → List Tree
  | [], _ => []
  | p :: ps, start => (p.mirror start).bare :: mirrorParts ps (start + p.wrapped.width + 1)

end

/-- The node of a phrase is dropped only if it is that of grouping parentheses. -/
theorem bare_mirror_of_not_isParens
    {p : Phrase} (hp : p.isParens = false) (start : Nat) :
    (p.mirror start).bare = p.mirror start := by
  unfold Tree.bare
  split
  · rename_i heq
    cases p with
    | group b parts => cases b <;> simp_all [mirror, isParens, Bracket.nodeKind]
    | leaf kind => simp [mirror, Tree.leaf] at heq
    | before => simp [mirror] at heq
    | after => simp [mirror] at heq
    | applied => simp [mirror] at heq
    | between => simp [mirror] at heq
  · rfl

/-- The number of inserted parentheses that stand before the first token of the phrase. -/
def lead : Phrase → Nat
  | before _ _ => 1
  | after operand _ => operand.lead + 1
  | applied callee _ _ => callee.lead + 1
  | between left _ _ => left.lead + 1
  | _ => 0

theorem lead_lt_width
    (p : Phrase) : p.lead < p.wrapped.width := by
  induction p with
  | leaf => simp [lead, wrapped, width]
  | group b parts _ => simp [lead, wrapped, width]
  | before op operand _ =>
      rw [lead, width_wrapped_before]
      omega
  | after operand op ih =>
      rw [lead, width_wrapped_after]
      omega
  | applied callee b parts ih _ =>
      rw [lead, width_wrapped_applied]
      omega
  | between left op right ih _ =>
      rw [lead, width_wrapped_between]
      omega

theorem fits_of_lead
    {p : Phrase} (hlead : p.lead = 0) (least : Nat) : p.Fits least := by
  cases p with
  | leaf | group => trivial
  | before | after | applied | between => simp [lead] at hlead

/-- An application stands between inserted parentheses. -/
theorem exists_wrapped
    {p : Phrase} (hlead : p.lead ≠ 0) :
    ∃ q, p.wrapped = group .paren [q] ∧ q.isParens = false := by
  cases p with
  | leaf | group => simp [lead] at hlead
  | before | after | applied | between => exact ⟨_, rfl, rfl⟩

theorem Marked.inserted
    {isInserted : Nat → Punctuation → Bool} {p : Phrase} {start : Nat}
    (h : p.Marked isInserted start) (hlead : p.lead ≠ 0) :
    isInserted start .lparen = true ∧
      isInserted (start + p.wrapped.width - 1) .rparen = true := by
  cases p with
  | leaf | group => simp [lead] at hlead
  | before op operand =>
      have hlast : start + (operand.wrapped.width + 3) - 1 =
          start + 2 + operand.wrapped.width := by omega
      rw [width_wrapped_before, hlast]
      exact ⟨h.1, h.2.2.2⟩
  | after operand op =>
      have hlast : start + (operand.wrapped.width + 3) - 1 =
          start + 1 + operand.wrapped.width + 1 := by omega
      rw [width_wrapped_after, hlast]
      exact ⟨h.1, h.2.2⟩
  | applied callee b parts =>
      have hlast : start + (callee.wrapped.width + (group b (wrappedAll parts)).width + 2) - 1 =
          start + 1 + callee.wrapped.width + (group b (wrappedAll parts)).width := by omega
      rw [width_wrapped_applied, hlast]
      exact ⟨h.1, h.2.2.2⟩
  | between left op right =>
      have hlast : start + (left.wrapped.width + right.wrapped.width + 3) - 1 =
          start + 1 + left.wrapped.width + 1 + right.wrapped.width := by omega
      rw [width_wrapped_between, hlast]
      exact ⟨h.1, h.2.2.2⟩

end Phrase

/-- The tokens end at an index, or go on with a mark that belongs to no operand. -/
def Ends (tokens : Array Token) (stop pos : Nat) : Prop :=
  stop ≤ pos ∨ ∃ mark : Punctuation, kindAt tokens pos = some (.punctuation mark) ∧
    mark.opens = none

theorem Ends.halts
    {tokens : Array Token} {stop pos : Nat} (h : Ends tokens stop pos) (least : Nat) :
    Halts tokens stop least pos := by
  rcases h with h | ⟨mark, hkind, hopens⟩
  · exact halts_of_le h
  · exact halts_of_punctuation hkind hopens

theorem Ends.lt_size
    {tokens : Array Token} {stop pos : Nat} (h : Ends tokens stop pos) (hlt : pos < stop) :
    pos < tokens.size := by
  rcases h with h | ⟨mark, hkind, -⟩
  · omega
  · exact lt_size_of_kindAt hkind

namespace Reading

variable {r : Reading} {bad : ParseError → Prop} {climb : Climber} {fill : Filler}

/-! ## Runs of inserted parentheses -/

theorem insertedRun_of_not
    {start stop steps : Nat} (h : r.isInserted start .lparen = false) :
    r.insertedRun stop steps start = 0 := by
  cases steps with
  | zero => rfl
  | succ steps => simp [insertedRun, h]

theorem insertedRun_of_inserted
    {start stop steps : Nat} (h : r.isInserted start .lparen = true) (hstart : start < stop) :
    r.insertedRun stop (steps + 1) start = r.insertedRun stop steps (start + 1) + 1 := by
  rw [insertedRun, if_pos ⟨hstart, h⟩, Nat.add_comm]

/-- The inserted parentheses before a phrase are counted. -/
theorem insertedRun_of_marked
    {p : Phrase} {start stop steps : Nat} (hmarked : p.Marked r.isInserted start)
    (hstop : start + p.wrapped.width ≤ stop) (hsteps : p.wrapped.width ≤ steps) :
    r.insertedRun stop steps start = p.lead := by
  have hpos := p.wrapped.width_pos
  obtain ⟨steps, rfl⟩ : ∃ less, steps = less + 1 := ⟨steps - 1, by omega⟩
  induction p generalizing start steps with
  | leaf => exact insertedRun_of_not hmarked
  | group b parts _ => exact insertedRun_of_not hmarked.1
  | before op operand _ =>
      rw [insertedRun_of_inserted hmarked.1 (by omega), insertedRun_of_not hmarked.2.1]
      rfl
  | after operand op ih =>
      have hoperand := operand.wrapped.width_pos
      rw [Phrase.width_wrapped_after] at hstop hsteps
      obtain ⟨steps, rfl⟩ : ∃ less, steps = less + 1 := ⟨steps - 1, by omega⟩
      rw [insertedRun_of_inserted hmarked.1 (by omega),
        ih hmarked.2.1 (by omega) hoperand steps (by omega)]
      rfl
  | applied callee b parts ih _ =>
      have hcallee := callee.wrapped.width_pos
      rw [Phrase.width_wrapped_applied] at hstop hsteps
      obtain ⟨steps, rfl⟩ : ∃ less, steps = less + 1 := ⟨steps - 1, by omega⟩
      rw [insertedRun_of_inserted hmarked.1 (by omega),
        ih hmarked.2.1 (by omega) hcallee steps (by omega)]
      rfl
  | between left op right ih _ =>
      have hleft := left.wrapped.width_pos
      rw [Phrase.width_wrapped_between] at hstop hsteps
      obtain ⟨steps, rfl⟩ : ∃ less, steps = less + 1 := ⟨steps - 1, by omega⟩
      rw [insertedRun_of_inserted hmarked.1 (by omega),
        ih hmarked.2.1 (by omega) hleft steps (by omega)]
      rfl

/-- The first of some inserted groups is closed where its operand ends. -/
theorem closeInserted_first
    {depth pos stop levels next : Nat} {operand : Tree}
    (hclosing : r.isInserted next .rparen = true) :
    r.closeInserted climb fill depth pos stop (levels + 1) true operand next =
      r.closeInserted climb fill depth pos stop levels false operand (next + 1) := by
  simp [closeInserted, hclosing]

/-- The next of some inserted groups is closed where its operand stops growing. -/
theorem closeInserted_grow
    {depth pos stop levels next last : Nat} {operand grown : Tree} {good : Prop}
    (hgrow : Attempt.OutcomeBy bad good
      (r.grow climb fill depth stop 0 (stop - next) none operand next) (.ok (grown, last)))
    (hclosing : r.isInserted last .rparen = true) :
    Attempt.OutcomeBy bad good
      (r.closeInserted climb fill depth pos stop (levels + 1) false operand next)
      (r.closeInserted climb fill depth pos stop levels false grown (last + 1)) := by
  constructor
  · intro hgood
    simp [closeInserted, hgrow.1 hgood, hclosing]
  · intro hnot
    obtain ⟨failure, herror, hbad⟩ := hgrow.2 hnot
    exact ⟨failure, by simp [closeInserted, herror], hbad⟩

/-! ## The statement -/

/-- A comma that is left over in a part of the grammar is one of the given errors. -/
def RejectsComma (r : Reading) (bad : ParseError → Prop) (production : Production) : Prop :=
  ∀ index, kindAt r.tokens index = some (.punctuation .comma) → bad (r.surplus production index)

/-- The errors that a grouped phrase can lead to are among the given ones: nesting too deep, and a
comma where a range is to be filled. Inserted groups add no error of their own. -/
structure Rejects (r : Reading) (bad : ParseError → Prop) : Prop where
  tooDeep : ∀ index, bad (.tooDeepAt r.tokens r.limit index)
  comma : ∀ production, production ≠ .grouping → r.RejectsComma bad production

theorem rejectsComma_isRefusal
    (r : Reading) (production : Production) : r.RejectsComma ParseError.IsRefusal production :=
  fun _ hcomma => isRefusal_surplus (lt_size_of_kindAt hcomma)

theorem rejects_isRefusal (r : Reading) : r.Rejects ParseError.IsRefusal :=
  ⟨fun _ => isRefusal_tooDeepAt _ _ _, fun production _ => r.rejectsComma_isRefusal production⟩

/-- The phrase stands grouped where an operand is read, and the bound on recursion is large
enough. -/
structure Seated (r : Reading) (p : Phrase) (fuel depth start least : Nat) : Prop where
  spells : p.wrapped.Spells r.tokens start
  marked : p.Marked r.isInserted start
  fits : p.Fits least
  least_le : least ≤ 16
  depth_le : depth ≤ r.limit
  enough : 40 * (r.limit - depth) + 34 ≤ fuel + 2 * least

/-- Where the phrase stands grouped, it is read as an operand. -/
def Reads (r : Reading) (bad : ParseError → Prop) (p : Phrase) : Prop :=
  ∀ fuel depth start stop least, r.Seated p fuel depth start least →
    start + p.wrapped.width ≤ stop →
    Attempt.OutcomeBy bad (r.Admits depth p)
      (r.prefixed (r.climb fuel) (r.fill fuel) depth start stop)
      (.ok (p.mirror start, start + p.wrapped.width))

/-- A range in which the phrase stands grouped is filled by it. -/
def FillsGrouped (r : Reading) (bad : ParseError → Prop) (p : Phrase) : Prop :=
  ∀ fuel depth start production, r.RejectsComma bad production →
    p.wrapped.Spells r.tokens start → p.Marked r.isInserted start → 40 * (r.limit - depth) < fuel →
    Attempt.OutcomeBy bad (r.AdmitsRange depth p)
      (r.fill fuel depth ⟨start, start + p.wrapped.width⟩ production)
      (.ok (p.mirror start).bare)

/-- What is read between the parentheses of a grouped application. -/
def ReadsInside
    (r : Reading) (bad : ParseError → Prop) (p : Phrase) (fuel depth start stop : Nat) : Prop :=
  Attempt.OutcomeBy bad (r.Admits depth p) (r.climb (fuel + 1) depth (start + 1) stop 0)
    (.ok (p.mirror start, start + p.wrapped.width - 1))

/-- Reading the innermost operand of an application and closing all groups is closing the groups
around the application, once it is read. -/
def Opens (r : Reading) (bad : ParseError → Prop) (p : Phrase) : Prop :=
  ∀ fuel depth start stop least pos levels, r.Seated p fuel depth start least →
    start + p.wrapped.width ≤ stop →
    Attempt.OutcomeBy bad (r.Admits depth p)
      (match r.climb fuel depth (start + p.lead) stop 0 with
      | .ok (operand, next) =>
          r.closeInserted (r.climb fuel) (r.fill fuel) depth pos stop (p.lead + levels) true
            operand next
      | .error failure => .error failure)
      (r.closeInserted (r.climb fuel) (r.fill fuel) depth pos stop levels false (p.mirror start)
        (start + p.wrapped.width))

/-- The operand on the left of an application grows into the application. -/
def Grows (r : Reading) (bad : ParseError → Prop) (p left : Phrase) : Prop :=
  ∀ fuel depth start stop least steps, r.Seated p (fuel + 1) depth start least →
    start + p.wrapped.width ≤ stop + 1 → Ends r.tokens stop (start + p.wrapped.width - 1) →
    stop - (start + 1 + left.wrapped.width) ≤ steps →
    ∃ good, (r.Admits depth p ↔ r.Admits depth left ∧ good) ∧
      Attempt.OutcomeBy bad good
        (r.grow (r.climb fuel) (r.fill fuel) depth stop 0 steps none (left.mirror (start + 1))
          (start + 1 + left.wrapped.width))
        (.ok (p.mirror start, start + p.wrapped.width - 1))

/-! ## Operands -/

/-- A phrase that is read as an operand is read up to where nothing more belongs to it. -/
theorem Reads.outcome
    {p : Phrase} (h : r.Reads bad p) {fuel depth start stop least : Nat}
    (hseated : r.Seated p fuel depth start least) (hstop : start + p.wrapped.width ≤ stop)
    (hends : Ends r.tokens stop (start + p.wrapped.width)) :
    Attempt.OutcomeBy bad (r.Admits depth p) (r.climb (fuel + 1) depth start stop least)
      (.ok (p.mirror start, start + p.wrapped.width)) := by
  have houtcome := h fuel depth start stop least hseated hstop
  constructor
  · intro hadmits
    rw [climb_of_prefixed (houtcome.1 hadmits), grow_of_halts (hends.halts least) hends.lt_size]
  · intro hnot
    exact climb_of_prefixed_failsBy (houtcome.2 hnot)

theorem reads_leaf (kind : NodeKind) : r.Reads bad (.leaf kind) := by
  intro fuel depth start stop least h _
  obtain ⟨k, hk, hleaf⟩ := Phrase.exists_of_spells_leaf h.spells
  refine ⟨fun _ => prefixed_of_leaf hk hleaf, fun hnot => ?_⟩
  exact absurd ⟨trivial, h.depth_le⟩ hnot

/-! ## Bracket groups -/

/-- Parts that stand grouped fill their ranges one after the other. -/
theorem fill_grouped_parts
    {parts : List Phrase} (hfills : ∀ p ∈ parts, r.FillsGrouped bad p) {fuel depth start : Nat}
    {production : Production} (hcomma : r.RejectsComma bad production)
    (hspells : Phrase.EachSpells r.tokens (Phrase.wrappedAll parts) start)
    (hmarked : Phrase.AllMarked r.isInserted parts start)
    (henough : 40 * (r.limit - depth) < fuel) :
    FillsEach bad (fun part => r.fill fuel depth part production)
      (∀ p ∈ parts, r.AdmitsRange depth p)
      (Phrase.partRanges (Phrase.wrappedAll parts) start) (Phrase.mirrorParts parts start) := by
  induction parts generalizing start with
  | nil => exact ⟨fun _ => .nil, fun h => absurd (by simp) h⟩
  | cons p ps ih =>
      have hhead := hfills p List.mem_cons_self fuel depth start production hcomma hspells.1
        hmarked.1 henough
      have htail := ih (fun q hq => hfills q (List.mem_cons_of_mem p hq)) hspells.2 hmarked.2
      rw [List.forall_mem_cons]
      exact FillsEach.cons hhead htail

/-- A range with a comma outside brackets is not filled. -/
theorem fill_grouped_of_comma
    {p q : Phrase} {ps : List Phrase} (hbad : r.Rejects bad) (hreads : r.Reads bad p)
    (hordered : p.Ordered) {fuel depth start : Nat} {production : Production}
    (hrejects : r.RejectsComma bad production)
    (hspells : Phrase.SpellsParts r.tokens (Phrase.wrappedAll (p :: q :: ps)) start)
    (hmarked : p.Marked r.isInserted start) (henough : 40 * (r.limit - depth) < fuel) :
    (r.fill fuel depth
      ⟨start, start + Phrase.partsWidth (Phrase.wrappedAll (p :: q :: ps))⟩
      production).FailsBy bad := by
  obtain ⟨hp, hcomma, -⟩ := hspells
  obtain ⟨fuel, rfl⟩ : ∃ more, fuel = more + 1 := ⟨fuel - 1, by omega⟩
  have hlt : start + p.wrapped.width <
      start + Phrase.partsWidth (Phrase.wrappedAll (p :: q :: ps)) := by
    simp only [Phrase.wrappedAll, Phrase.partsWidth, Phrase.laterWidth]
    omega
  rw [fill, fillWith_eq, dropOuterParens_of_spells_lt hp hlt]
  by_cases hdepth : r.limit ≤ depth
  · exact deeper_of_le hdepth (hbad.tooDeep _)
  rw [deeper_of_lt (by omega)]
  obtain ⟨fuel, rfl⟩ : ∃ more, fuel = more + 1 := ⟨fuel - 1, by omega⟩
  have hseated : r.Seated p fuel (depth + 1) start 0 :=
    ⟨hp, hmarked, Phrase.fits_zero hordered, by omega, by omega, by omega⟩
  exact fillInner_of_lt
    (hreads.outcome hseated (Nat.le_of_lt hlt) (Or.inr ⟨_, hcomma, rfl⟩)) (by omega) hlt
    (hrejects _ hcomma)

theorem reads_group
    {b : Bracket} {parts : List Phrase} (hbad : r.Rejects bad)
    (hreads : ∀ p ∈ parts, r.Reads bad p) (hfills : ∀ p ∈ parts, r.FillsGrouped bad p)
    (hordered : ∀ p ∈ parts, p.Ordered) (hfilled : b = .paren → parts ≠ []) :
    r.Reads bad (.group b parts) := by
  intro fuel depth start stop least h hstop
  have henough : 40 * (r.limit - depth) < fuel := by
    have := h.enough
    have := h.least_le
    omega
  obtain ⟨hinserted, hmarked⟩ := h.marked
  have hspells : (Phrase.group b (Phrase.wrappedAll parts)).Spells r.tokens start := h.spells
  rw [admits_group_iff h.depth_le]
  by_cases hb : b = .paren
  · subst hb
    rw [prefixed_of_paren hspells.1 hinserted]
    have hrejects : r.RejectsComma bad .subexpression := hbad.comma _ (by decide)
    match parts with
    | [] => exact absurd rfl (hfilled rfl)
    | [p] =>
        have hinner := hfills p List.mem_cons_self fuel depth (start + 1) .subexpression hrejects
          hspells.2.1.1 hmarked.1 henough
        have hgood : ((Bracket.paren = .paren → [p].length = 1) ∧
            ∀ q ∈ [p], r.AdmitsRange depth q) ↔ r.AdmitsRange depth p := by simp
        rw [hgood]
        exact subexpression_of_cons hinner hspells hstop
    | p :: q :: ps =>
        have hcomma := fill_grouped_of_comma hbad (hreads p List.mem_cons_self)
          (hordered p List.mem_cons_self) hrejects hspells.2.1 hmarked.1 henough
        have hnever : Attempt.OutcomeBy bad False (r.fill fuel depth ⟨start + 1,
            start + 1 + Phrase.partsWidth (Phrase.wrappedAll (p :: q :: ps))⟩ .subexpression)
            (.ok (p.mirror start)) := ⟨False.elim, fun _ => hcomma⟩
        refine ⟨fun h => absurd (h.1 rfl) (by simp), fun _ => ?_⟩
        exact (subexpression_of_cons hnever hspells hstop).2 id
  · obtain ⟨production, hproduction, heq⟩ := prefixed_of_list hspells.1 hb
    rw [heq]
    have hparts := fill_grouped_parts hfills (hbad.comma production hproduction)
      hspells.2.1.eachSpells hmarked henough
    have hlist : Attempt.OutcomeBy bad _
        (r.list (r.fill fuel) depth start stop b b.nodeKind production) _ :=
      list_of_spells hparts hspells hstop
    exact ⟨fun hadmits => hlist.1 hadmits.2,
      fun hnot => hlist.2 fun hparts => hnot ⟨fun hparen => absurd hparen hb, hparts⟩⟩

/-- A bracket group or a single token fills a range as it is read as an operand. -/
theorem Reads.fillsGrouped
    {p : Phrase} (hbad : r.Rejects bad) (h : r.Reads bad p) (hordered : p.Ordered)
    (hlead : p.lead = 0) (hp : p.isParens = false) : r.FillsGrouped bad p := by
  intro fuel depth start production _ hspells hmarked henough
  obtain ⟨fuel, rfl⟩ : ∃ more, fuel = more + 1 := ⟨fuel - 1, by omega⟩
  have hwrapped : p.wrapped.isParens = false := by
    cases p with
    | leaf => rfl
    | group b parts => cases b <;> first | rfl | simp [Phrase.isParens] at hp
    | before | after | applied | between => simp [Phrase.lead] at hlead
  rw [Phrase.bare_mirror_of_not_isParens hp]
  apply fill_of_climb hspells hwrapped (fun hadmits => hadmits.depth_lt hp) (hbad.tooDeep _)
  intro hdepth
  obtain ⟨fuel, rfl⟩ : ∃ more, fuel = more + 1 := ⟨fuel - 1, by omega⟩
  have hseated : r.Seated p fuel (depth + 1) start 0 :=
    ⟨hspells, hmarked, Phrase.fits_zero hordered, by omega, by omega, by omega⟩
  rw [admitsRange_iff hp]
  exact h.outcome hseated (Nat.le_refl _) (Or.inl (Nat.le_refl _))

/-- Grouping parentheses around a single part fill a range as the part does. -/
theorem fillsGrouped_parens
    {parts : List Phrase} (hbad : r.Rejects bad) (hreads : ∀ p ∈ parts, r.Reads bad p)
    (hfills : ∀ p ∈ parts, r.FillsGrouped bad p) (hordered : ∀ p ∈ parts, p.Ordered)
    (hfilled : parts ≠ []) : r.FillsGrouped bad (.group .paren parts) := by
  intro fuel depth start production hrejects hspells hmarked henough
  obtain ⟨fuel, rfl⟩ : ∃ more, fuel = more + 1 := ⟨fuel - 1, by omega⟩
  match parts with
  | [] => exact absurd rfl hfilled
  | [p] =>
      rw [admitsRange_parens_iff]
      exact fill_parens hspells hbad.tooDeep (hfills p List.mem_cons_self (fuel + 1) depth
        (start + 1) production hrejects hspells.2.1.1 hmarked.2.1 henough)
  | p :: q :: ps =>
      have hcomma := fill_grouped_of_comma hbad (hreads p List.mem_cons_self)
        (hordered p List.mem_cons_self) hrejects hspells.2.1 hmarked.2.1 henough
      have hnever : Attempt.OutcomeBy bad False (r.fill (fuel + 1) depth ⟨start + 1,
          start + 1 + Phrase.partsWidth (Phrase.wrappedAll (p :: q :: ps))⟩ production)
          (.ok (p.mirror start)) := ⟨False.elim, fun _ => hcomma⟩
      refine ⟨fun hadmits => absurd (hadmits.1.1 rfl) (by simp), fun _ => ?_⟩
      exact (fill_parens hspells hbad.tooDeep hnever).2 id

/-! ## Growing operands -/

theorem Seated.mono
    {p : Phrase} {fuel more depth start least : Nat} (h : r.Seated p fuel depth start least)
    (hle : fuel ≤ more) : r.Seated p more depth start least :=
  { h with enough := Nat.le_trans h.enough (by omega) }

/-- The right operand of an operation is read up to its end. -/
theorem rightOperand_of_reads
    {op : Operation} {right : Phrase} (hbad : r.Rejects bad) (hreads : r.Reads bad right)
    (hbetween : op.entry.fixity = .between) (hright : right.RightOf op) (hordered : right.Ordered)
    {fuel depth start stop least : Nat} (hspells : right.wrapped.Spells r.tokens (start + 1))
    (hmarked : right.Marked r.isInserted (start + 1))
    (hstop : start + 1 + right.wrapped.width ≤ stop) (hdepth : depth ≤ r.limit)
    (hle : least ≤ op.priority) (henough : 40 * (r.limit - depth) + 34 ≤ fuel + 1 + 2 * least)
    (hends : Ends r.tokens stop (start + 1 + right.wrapped.width)) :
    Attempt.OutcomeBy bad (r.Admits (if op.associativity = .right then depth + 1 else depth) right)
      (r.rightOperand (r.climb fuel) depth start stop op)
      (.ok (right.mirror (start + 1), start + 1 + right.wrapped.width)) := by
  have hfits := hright.fits hbetween hordered
  have hpriority := op.priority_le_memberAccessPriority
  unfold Operation.memberAccessPriority at hpriority
  by_cases hassoc : op.associativity = .right
  · rw [Operation.rightLeast_of_right hassoc] at hfits
    rw [rightOperand, if_pos hassoc, if_pos hassoc]
    by_cases hlimit : r.limit ≤ depth
    · refine ⟨fun hadmits => ?_, fun _ => deeper_of_le hlimit (hbad.tooDeep _)⟩
      have := hadmits.2
      omega
    · obtain ⟨fuel, rfl⟩ : ∃ more, fuel = more + 1 := ⟨fuel - 1, by omega⟩
      rw [deeper_of_lt (by omega)]
      exact hreads.outcome ⟨hspells, hmarked, hfits, by omega, by omega, by omega⟩ hstop hends
  · rw [Operation.rightLeast_of_ne_right hassoc] at hfits
    rw [rightOperand, if_neg hassoc, if_neg hassoc]
    obtain ⟨fuel, rfl⟩ : ∃ more, fuel = more + 1 := ⟨fuel - 1, by omega⟩
    exact hreads.outcome ⟨hspells, hmarked, hfits, by omega, hdepth, by omega⟩ hstop hends

theorem grows_between
    {left right : Phrase} {op : Operation} (hbad : r.Rejects bad) (hreads : r.Reads bad right)
    (hordered : (Phrase.between left op right).Ordered) :
    r.Grows bad (.between left op right) left := by
  intro fuel depth start stop least steps h hstop hends hsteps
  obtain ⟨hfixity, -, hrightOf, -, hright⟩ := hordered
  obtain ⟨-, ⟨hinner, -⟩, -⟩ := id h.spells
  obtain ⟨k, hk, hbetween⟩ := Phrase.exists_of_spells_between hinner
  obtain ⟨-, -, hmarked, -⟩ := id h.marked
  have hpos := right.wrapped.width_pos
  have hend : start + (Phrase.between left op right).wrapped.width - 1 =
      start + 1 + left.wrapped.width + 1 + right.wrapped.width := by
    rw [Phrase.width_wrapped_between]
    omega
  rw [Phrase.width_wrapped_between] at hstop
  rw [hend] at hends
  have hrightOperand := rightOperand_of_reads hbad hreads hfixity hrightOf hright hinner.2.2
    hmarked (by omega) h.depth_le h.fits.1 h.enough hends
  obtain ⟨steps, rfl⟩ : ∃ more, steps = more + 1 := ⟨steps - 1, by omega⟩
  refine ⟨_, admits_between_iff, ?_⟩
  rw [hend, grow_between (by omega) hk hbetween (Nat.zero_le _) rfl]
  constructor
  · intro hadmits
    rw [hrightOperand.1 hadmits]
    simp only [Attempt.after]
    rw [grow_of_halts (hends.halts 0) hends.lt_size]
    rfl
  · intro hnot
    obtain ⟨failure, herror, hfails⟩ := (hrightOperand.2 hnot).after (left.mirror (start + 1))
    rw [herror]
    exact ⟨failure, rfl, hfails⟩

theorem admits_after_iff
    {depth : Nat} {operand : Phrase} {op : Operation} :
    r.Admits depth (.after operand op) ↔ r.Admits depth operand ∧ True := by
  simp [Admits, Phrase.Single, Phrase.level]

theorem grows_after
    (operand : Phrase) (op : Operation) : r.Grows bad (.after operand op) operand := by
  intro fuel depth start stop least steps h hstop hends hsteps
  obtain ⟨-, ⟨hinner, -⟩, -⟩ := id h.spells
  obtain ⟨k, hk, hafter⟩ := Phrase.exists_of_spells_after hinner
  have hend : start + (Phrase.after operand op).wrapped.width - 1 =
      start + 1 + operand.wrapped.width + 1 := by
    rw [Phrase.width_wrapped_after]
    omega
  rw [Phrase.width_wrapped_after] at hstop
  rw [hend] at hends
  obtain ⟨steps, rfl⟩ : ∃ more, steps = more + 1 := ⟨steps - 1, by omega⟩
  refine ⟨_, admits_after_iff, fun _ => ?_, fun hnot => absurd trivial hnot⟩
  rw [hend, grow_after (by omega) hk hafter (Nat.zero_le _),
    grow_of_halts (hends.halts 0) hends.lt_size]
  rfl

theorem grows_applied
    {callee : Phrase} {b : Bracket} {parts : List Phrase} (hbad : r.Rejects bad)
    (hfills : ∀ p ∈ parts, r.FillsGrouped bad p) :
    r.Grows bad (.applied callee b parts) callee := by
  intro fuel depth start stop least steps h hstop hends hsteps
  obtain ⟨-, ⟨hinner, -⟩, -⟩ := id h.spells
  obtain ⟨-, hgroup⟩ := Phrase.spells_applied_iff.mp hinner
  obtain ⟨-, -, hmarked, -⟩ := id h.marked
  have henough : 40 * (r.limit - depth) < fuel := by
    have := h.enough
    have := h.least_le
    omega
  have hpos := (Phrase.group b (Phrase.wrappedAll parts)).width_pos
  have hend : start + (Phrase.applied callee b parts).wrapped.width - 1 =
      start + 1 + callee.wrapped.width + (Phrase.group b (Phrase.wrappedAll parts)).width := by
    rw [Phrase.width_wrapped_applied]
    omega
  rw [Phrase.width_wrapped_applied] at hstop
  rw [hend] at hends
  have hproduction : (groupRole b).2.2 ≠ .grouping := by
    cases b <;> decide
  have hparts := fill_grouped_parts hfills (hbad.comma _ hproduction) hgroup.2.1.eachSpells
    hmarked henough
  have happlied : Attempt.OutcomeBy bad _ (r.applied (r.fill fuel) depth
      (callee.mirror (start + 1)) (start + 1 + callee.wrapped.width) stop b) _ :=
    applied_of_spells hparts hgroup (by omega)
  obtain ⟨steps, rfl⟩ : ∃ more, steps = more + 1 := ⟨steps - 1, by omega⟩
  refine ⟨_, admits_applied_iff, ?_⟩
  rw [hend, grow_applied (by omega) hgroup.1 (Nat.zero_le _)]
  constructor
  · intro hadmits
    rw [happlied.1 hadmits]
    simp only
    rw [grow_of_halts (hends.halts 0) hends.lt_size]
    rfl
  · intro hnot
    obtain ⟨failure, herror, hfails⟩ := happlied.2 hnot
    rw [herror]
    exact ⟨failure, rfl, hfails⟩

/-! ## Applications -/

/-- With its left operand read, an application is read between its parentheses. -/
theorem Grows.readsInside
    {p left : Phrase} (h : r.Grows bad p left) {fuel depth start stop least : Nat}
    (hseated : r.Seated p (fuel + 1) depth start least)
    (hstop : start + p.wrapped.width ≤ stop + 1)
    (hends : Ends r.tokens stop (start + p.wrapped.width - 1))
    (hleft : Attempt.OutcomeBy bad (r.Admits depth left)
      (r.prefixed (r.climb fuel) (r.fill fuel) depth (start + 1) stop)
      (.ok (left.mirror (start + 1), start + 1 + left.wrapped.width))) :
    r.ReadsInside bad p fuel depth start stop := by
  obtain ⟨good, hadmits, hgrow⟩ :=
    h fuel depth start stop least _ hseated hstop hends (Nat.le_refl _)
  rw [ReadsInside, hadmits]
  by_cases hadmitsLeft : r.Admits depth left
  · rw [climb_of_prefixed (hleft.1 hadmitsLeft)]
    exact ⟨fun hboth => hgrow.1 hboth.2, fun hnot => hgrow.2 fun hgood =>
      hnot ⟨hadmitsLeft, hgood⟩⟩
  · exact ⟨fun hboth => absurd hboth.1 hadmitsLeft,
      fun _ => climb_of_prefixed_failsBy (hleft.2 hadmitsLeft)⟩

/-- An operation before an operand is read between its parentheses. -/
theorem readsInside_before
    {op : Operation} {operand : Phrase} (hbad : r.Rejects bad) (hreads : r.Reads bad operand)
    (hordered : (Phrase.before op operand).Ordered) {fuel depth start stop least : Nat}
    (h : r.Seated (.before op operand) (fuel + 1) depth start least)
    (hstop : start + (Phrase.before op operand).wrapped.width ≤ stop + 1)
    (hends : Ends r.tokens stop (start + (Phrase.before op operand).wrapped.width - 1)) :
    r.ReadsInside bad (.before op operand) fuel depth start stop := by
  obtain ⟨-, ⟨hinner, -⟩, -⟩ := id h.spells
  obtain ⟨k, hk, hbefore⟩ := Phrase.exists_of_spells_before hinner
  obtain ⟨-, -, hmarked, -⟩ := id h.marked
  have henough := h.enough
  have hleast := h.least_le
  have hpos := operand.wrapped.width_pos
  have hend : start + (Phrase.before op operand).wrapped.width - 1 =
      start + 2 + operand.wrapped.width := by
    rw [Phrase.width_wrapped_before]
    omega
  rw [Phrase.width_wrapped_before] at hstop
  rw [hend] at hends
  have hoperand : Attempt.OutcomeBy bad (r.Admits (depth + 1) operand)
      (r.deeper depth (start + 1)
        (r.climb fuel (depth + 1) (start + 2) stop Operation.beforePriority))
      (.ok (operand.mirror (start + 2), start + 2 + operand.wrapped.width)) := by
    by_cases hlimit : r.limit ≤ depth
    · refine ⟨fun hadmits => ?_, fun _ => deeper_of_le hlimit (hbad.tooDeep _)⟩
      have := hadmits.2
      omega
    · obtain ⟨fuel, rfl⟩ : ∃ more, fuel = more + 1 := ⟨fuel - 1, by omega⟩
      rw [deeper_of_lt (by omega)]
      refine hreads.outcome ⟨hinner.2, hmarked, hordered.1.fits hordered.2, by decide, by omega,
        ?_⟩ (by omega) hends
      unfold Operation.beforePriority
      omega
  rw [ReadsInside, admits_before_iff, hend]
  constructor
  · intro hadmits
    have hprefixed : r.prefixed (r.climb fuel) (r.fill fuel) depth (start + 1) stop =
        .ok ((Phrase.before op operand).mirror start, start + 2 + operand.wrapped.width) := by
      rw [prefixed_of_before hk hbefore (by omega), hoperand.1 hadmits]
      rfl
    rw [climb_of_prefixed hprefixed, grow_of_halts (hends.halts 0) hends.lt_size]
  · intro hnot
    obtain ⟨failure, herror, hfails⟩ := hoperand.2 hnot
    refine climb_of_prefixed_failsBy ⟨failure, ?_, hfails⟩
    rw [prefixed_of_before hk hbefore (by omega), herror]

/-- An application that is read between its parentheses fills the range of its parentheses. -/
theorem fillsGrouped_of_readsInside
    {p : Phrase} (hbad : r.Rejects bad) (hlead : p.lead ≠ 0) (hp : p.isParens = false)
    (hordered : p.Ordered)
    (hinside : ∀ fuel depth start stop, r.Seated p fuel depth start 0 →
      start + p.wrapped.width ≤ stop + 1 → Ends r.tokens stop (start + p.wrapped.width - 1) →
      r.ReadsInside bad p fuel depth start stop) : r.FillsGrouped bad p := by
  intro fuel depth start production _ hspells hmarked henough
  obtain ⟨fuel, rfl⟩ : ∃ more, fuel = more + 1 := ⟨fuel - 1, by omega⟩
  obtain ⟨q, hwrapped, hq⟩ := Phrase.exists_wrapped hlead
  have hparens : (Phrase.group .paren [q]).Spells r.tokens start := hwrapped ▸ hspells
  have hwidth : start + 1 + q.width = start + p.wrapped.width - 1 := by
    rw [hwrapped]
    simp only [Phrase.width, Phrase.partsWidth, Phrase.laterWidth]
    omega
  rw [Phrase.bare_mirror_of_not_isParens hp, hwrapped]
  refine fill_parens hparens hbad.tooDeep (fill_of_climb hparens.2.1.1 hq
    (fun hadmits => hadmits.depth_lt hp) (hbad.tooDeep _) fun hdepth => ?_)
  obtain ⟨fuel, rfl⟩ : ∃ more, fuel = more + 1 := ⟨fuel - 1, by omega⟩
  have hseated : r.Seated p fuel (depth + 1) start 0 :=
    ⟨hspells, hmarked, Phrase.fits_zero hordered, by omega, by omega, by omega⟩
  have houtcome := hinside fuel (depth + 1) start (start + 1 + q.width) hseated (by omega)
    (Or.inl (by omega))
  rw [ReadsInside, ← hwidth] at houtcome
  rwa [admitsRange_iff hp]

/-- The parentheses of an application end what is read between them. -/
theorem ends_of_wrapped
    {tokens : Array Token} {p : Phrase} {start : Nat} (hspells : p.wrapped.Spells tokens start)
    (hlead : p.lead ≠ 0) (stop : Nat) : Ends tokens stop (start + p.wrapped.width - 1) := by
  obtain ⟨q, hwrapped, -⟩ := Phrase.exists_wrapped hlead
  have hparens : (Phrase.group .paren [q]).Spells tokens start := hwrapped ▸ hspells
  have hlast : start + p.wrapped.width - 1 = start + 1 + Phrase.partsWidth [q] := by
    rw [hwrapped]
    simp only [Phrase.width]
    omega
  rw [hlast]
  exact Or.inr ⟨.rparen, hparens.2.2, rfl⟩

/-- An application of which the first token stands directly in its parentheses opens as it is read
there. -/
theorem opens_of_readsInside
    {p : Phrase} (hlead : p.lead = 1)
    (hinside : ∀ fuel depth start stop least, r.Seated p (fuel + 1) depth start least →
      start + p.wrapped.width ≤ stop → r.ReadsInside bad p fuel depth start stop) : r.Opens bad p := by
  intro fuel depth start stop least pos levels hseated hstop
  have henough := hseated.enough
  have hleast := hseated.least_le
  have hpos := p.wrapped.width_pos
  obtain ⟨fuel, rfl⟩ : ∃ more, fuel = more + 1 := ⟨fuel - 1, by omega⟩
  obtain ⟨-, hclosing⟩ := hseated.marked.inserted (by omega)
  have houtcome := hinside fuel depth start stop least hseated hstop
  have hlast : start + p.wrapped.width - 1 + 1 = start + p.wrapped.width := by omega
  rw [hlead, Nat.add_comm 1 levels]
  constructor
  · intro hadmits
    rw [houtcome.1 hadmits]
    simp only
    rw [closeInserted_first hclosing, hlast]
  · intro hnot
    obtain ⟨failure, herror, hbad⟩ := houtcome.2 hnot
    exact ⟨failure, by rw [herror], hbad⟩

/-- An application opens with the application on its left. -/
theorem Grows.opens
    {p left : Phrase} (h : r.Grows bad p left) (hleft : r.Opens bad left) (hlead : p.lead = left.lead + 1)
    (hseat : ∀ fuel depth start least, r.Seated p fuel depth start least →
      r.Seated left fuel depth (start + 1) least)
    (hwidth : left.wrapped.width < p.wrapped.width) : r.Opens bad p := by
  intro fuel depth start stop least pos levels hseated hstop
  have hpos := p.wrapped.width_pos
  obtain ⟨-, hclosing⟩ := hseated.marked.inserted (by omega)
  have hends := ends_of_wrapped hseated.spells (by omega) stop
  obtain ⟨good, hadmits, hgrow⟩ := h fuel depth start stop least _
    (hseated.mono (Nat.le_succ fuel)) (by omega) hends (Nat.le_refl _)
  have hlast : start + p.wrapped.width - 1 + 1 = start + p.wrapped.width := by omega
  have hclose : Attempt.OutcomeBy bad good (r.closeInserted (r.climb fuel) (r.fill fuel) depth
      pos stop (levels + 1) false (left.mirror (start + 1)) (start + 1 + left.wrapped.width)) _ :=
    closeInserted_grow hgrow hclosing
  rw [hlast] at hclose
  have hopens := hleft fuel depth (start + 1) stop least pos (levels + 1)
    (hseat fuel depth start least hseated) (by omega)
  have hstart : start + p.lead = start + 1 + left.lead := by omega
  have hlevels : p.lead + levels = left.lead + (levels + 1) := by omega
  rw [hadmits, hstart, hlevels]
  by_cases hadmitsLeft : r.Admits depth left
  · rw [hopens.1 hadmitsLeft]
    exact ⟨fun hboth => hclose.1 hboth.2, fun hnot => hclose.2 fun hgood =>
      hnot ⟨hadmitsLeft, hgood⟩⟩
  · exact ⟨fun hboth => absurd hboth.1 hadmitsLeft, fun _ => hopens.2 hadmitsLeft⟩

/-- An application that opens is read as an operand. -/
theorem Opens.reads
    {p : Phrase} (h : r.Opens bad p) (hlead : p.lead ≠ 0) : r.Reads bad p := by
  intro fuel depth start stop least hseated hstop
  obtain ⟨hopening, -⟩ := hseated.marked.inserted hlead
  obtain ⟨q, hwrapped, -⟩ := Phrase.exists_wrapped hlead
  have hparens : (Phrase.group .paren [q]).Spells r.tokens start := hwrapped ▸ hseated.spells
  have hrun := insertedRun_of_marked hseated.marked hstop (by omega : _ ≤ stop - start)
  have hlt := p.lead_lt_width
  have hopens := h fuel depth start stop least start 0 hseated hstop
  rw [prefixed_of_inserted hparens.1 hopening, insertedGroups, hrun, if_neg (by omega)]
  exact hopens

/-! ## The main statement -/

/-- An application that its left operand grows into is read like it. -/
theorem Grows.outcomes
    {p left : Phrase} (hbad : r.Rejects bad) (h : r.Grows bad p left) (hreads : r.Reads bad left)
    (hopens : left.lead ≠ 0 → r.Opens bad left) (hlead : p.lead = left.lead + 1)
    (hp : p.isParens = false) (hordered : p.Ordered)
    (hseat : ∀ fuel depth start least, r.Seated p fuel depth start least →
      r.Seated left fuel depth (start + 1) least)
    (hwidth : left.wrapped.width + 2 ≤ p.wrapped.width)
    (hleast : ∀ least, p.Fits least → least < 16) :
    r.Opens bad p ∧ r.Reads bad p ∧ r.FillsGrouped bad p := by
  have hpOpens : r.Opens bad p := by
    by_cases hleft : left.lead = 0
    · apply opens_of_readsInside (by omega)
      intro fuel depth start stop least hseated hstop
      have hlt := hleast least hseated.fits
      have henough := hseated.enough
      -- The first token is read with less of the bound, but nothing has to fit.
      have hleftSeated : r.Seated left fuel depth (start + 1) (least + 1) :=
        { hseat _ _ _ _ hseated with
          fits := Phrase.fits_of_lead hleft _
          least_le := hlt
          enough := by omega }
      exact h.readsInside hseated (by omega) (ends_of_wrapped hseated.spells (by omega) stop)
        (hreads fuel depth (start + 1) stop (least + 1) hleftSeated (by omega))
    · exact h.opens (hopens hleft) hlead hseat (by omega)
  refine ⟨hpOpens, hpOpens.reads (by omega), ?_⟩
  refine fillsGrouped_of_readsInside hbad (by omega) hp hordered
    fun fuel depth start stop hseated hstop hends => ?_
  exact h.readsInside (hseated.mono (Nat.le_succ fuel)) hstop hends
    (hreads fuel depth (start + 1) stop 0 (hseat _ _ _ _ hseated) (by omega))

/-- Where an ordered phrase stands grouped, the phrase decides what is read. -/
theorem reads_and_fillsGrouped
    {p : Phrase} (hbad : r.Rejects bad) (hordered : p.Ordered) (hfilled : p.Filled) :
    (p.lead ≠ 0 → r.Opens bad p) ∧ r.Reads bad p ∧ r.FillsGrouped bad p := by
  induction p with
  | leaf kind =>
      have hreads : r.Reads bad (.leaf kind) := reads_leaf kind
      exact ⟨fun hlead => absurd rfl hlead, hreads, hreads.fillsGrouped hbad hordered rfl rfl⟩
  | group b parts ih =>
      have hparts := Phrase.allOrdered_iff.mp hordered
      have houtcomes := fun p hp => ih p hp (hparts p hp) (Phrase.allFilled_iff.mp hfilled.2 p hp)
      have hreads : ∀ p ∈ parts, r.Reads bad p := fun p hp => (houtcomes p hp).2.1
      have hfills : ∀ p ∈ parts, r.FillsGrouped bad p := fun p hp => (houtcomes p hp).2.2
      have hgroup : r.Reads bad (.group b parts) :=
        reads_group hbad hreads hfills hparts hfilled.1
      refine ⟨fun hlead => absurd rfl hlead, hgroup, ?_⟩
      cases b with
      | paren => exact fillsGrouped_parens hbad hreads hfills hparts (hfilled.1 rfl)
      | square | brace => exact hgroup.fillsGrouped hbad hordered rfl rfl
  | before op operand ih =>
      have hreads := (ih hordered.2 hfilled).2.1
      have hopens : r.Opens bad (.before op operand) := by
        apply opens_of_readsInside rfl
        intro fuel depth start stop least hseated hstop
        exact readsInside_before hbad hreads hordered hseated (by omega)
          (ends_of_wrapped hseated.spells (by simp [Phrase.lead]) stop)
      refine ⟨fun _ => hopens, hopens.reads (by simp [Phrase.lead]), ?_⟩
      refine fillsGrouped_of_readsInside hbad (by simp [Phrase.lead]) rfl hordered
        fun fuel depth start stop hseated hstop hends => ?_
      exact readsInside_before hbad hreads hordered (hseated.mono (Nat.le_succ fuel)) hstop hends
  | after operand op ih =>
      have hleft := ih hordered.2 hfilled
      have houtcomes := (grows_after operand op).outcomes hbad hleft.2.1 hleft.1 rfl rfl hordered
        (fun fuel depth start least h => ⟨h.spells.2.1.1.1, h.marked.2.1, h.fits.2, h.least_le,
          h.depth_le, h.enough⟩) (by rw [Phrase.width_wrapped_after]; omega)
        (fun least hfits => Nat.lt_of_le_of_lt hfits.1 (by decide))
      exact ⟨fun _ => houtcomes.1, houtcomes.2⟩
  | applied callee b parts ih ihParts =>
      have hparts := Phrase.allOrdered_iff.mp hordered.2.2
      have hleft := ih hordered.2.1 hfilled.1
      have hgrows : r.Grows bad (.applied callee b parts) callee := grows_applied hbad fun p hp =>
        (ihParts p hp (hparts p hp) (Phrase.allFilled_iff.mp hfilled.2 p hp)).2.2
      have houtcomes := hgrows.outcomes hbad hleft.2.1 hleft.1 rfl rfl hordered
        (fun fuel depth start least h => ⟨h.spells.2.1.1.1, h.marked.2.1, h.fits.2, h.least_le,
          h.depth_le, h.enough⟩) (by rw [Phrase.width_wrapped_applied]; omega)
        (fun least hfits => Nat.lt_of_le_of_lt hfits.1 (by decide))
      exact ⟨fun _ => houtcomes.1, houtcomes.2⟩
  | between left op right ihLeft ihRight =>
      obtain ⟨-, -, -, hleftOrdered, hrightOrdered⟩ := id hordered
      have hleft := ihLeft hleftOrdered hfilled.1
      have hgrows : r.Grows bad (.between left op right) left :=
        grows_between hbad (ihRight hrightOrdered hfilled.2).2.1 hordered
      have houtcomes := hgrows.outcomes hbad hleft.2.1 hleft.1 rfl rfl hordered
        (fun fuel depth start least h => ⟨h.spells.2.1.1.1, h.marked.2.1, h.fits.2, h.least_le,
          h.depth_le, h.enough⟩) (by rw [Phrase.width_wrapped_between]; omega)
        (fun least hfits => Nat.lt_of_le_of_lt hfits.1
          (Nat.lt_succ_of_le op.priority_le_memberAccessPriority))
      exact ⟨fun _ => houtcomes.1, houtcomes.2⟩

end Reading

end ExprFront
