import ExprFront.Proofs.Phrase.Order
import ExprFront.Proofs.Reading.Steps
import Mathlib.Tactic.ByContra

/-!
# Everything that is read is a phrase

Whenever reading tokens as they were written yields a tree, the tokens spell an
ordered phrase of which this is the tree. The proof follows the recursion: if
the functions in the place of the two recursive ones only yield trees of
phrases, so does one more level of reading. While an operand grows, the phrase
that was read so far is kept together with the fact that the token after it
belongs to none of its operands; it makes the phrase the left operand of
whatever follows.
-/

namespace ExprFront

namespace Reading

variable {r : Reading}

/-! ## The statement -/

/-- The tokens from `start` on spell a phrase with this tree, up to a token that belongs to none of
its operands. -/
structure Found (r : Reading) (p : Phrase) (start stop least : Nat) (t : Tree) (next : Nat) :
    Prop where
  spells : p.Spells r.tokens start
  ordered : p.Ordered
  single : p.Single
  fits : p.Fits least
  halts : ∀ f ∈ p.spine, Halts r.tokens stop f.least next
  tree_eq : t = p.tree start
  next_eq : next = start + p.width
  next_le : next ≤ stop

/-- Operands that are read are phrases. -/
def ClimbsPhrases (r : Reading) (climb : Climber) : Prop :=
  ∀ depth start stop least t next, start < stop →
    climb depth start stop least = .ok (t, next) →
    ∃ p, r.Found p start stop least t next ∧ Halts r.tokens stop least next

/-- Ranges that are filled are phrases. -/
def FillsPhrases (r : Reading) (fill : Filler) : Prop :=
  ∀ depth range production t, fill depth range production = .ok t →
    ∃ p : Phrase, p.Covers r.tokens range ∧ p.Ordered ∧ p.Single ∧ t = (p.tree range.start).bare

/-! ## Lists -/

theorem forall₂_of_items
    {fillPart : TokenRange → Attempt Tree} {kind : NodeKind} {range : TokenRange}
    {parts : List TokenRange} {done : List Tree} {t : Tree}
    (h : items fillPart kind range done parts = .ok t) :
    ∃ trees, t = .node kind range (done ++ trees) ∧
      List.Forall₂ (fun part t => fillPart part = .ok t) parts trees := by
  induction parts generalizing done with
  | nil =>
      cases h
      exact ⟨[], by simp, .nil⟩
  | cons part parts ih =>
      rw [items] at h
      cases hpart : fillPart part with
      | error failure => simp [hpart, Attempt.after] at h
      | ok item =>
          simp only [hpart, Attempt.after] at h
          obtain ⟨trees, rfl, htrees⟩ := ih h
          exact ⟨item :: trees, by simp, .cons hpart htrees⟩

/-- Ranges that are filled one after the other are covered by phrases. -/
theorem exists_parts_of_fill
    {fill : Filler} (hfill : r.FillsPhrases fill) {depth : Nat} {production : Production}
    {ranges : List TokenRange} {trees : List Tree}
    (h : List.Forall₂ (fun part t => fill depth part production = .ok t) ranges trees) :
    ∃ parts, List.Forall₂ (Phrase.Covers r.tokens) parts ranges ∧
      (∀ p ∈ parts, p.Ordered ∧ p.Single) ∧
      trees = List.zipWith (fun p range => (p.tree range.start).bare) parts ranges := by
  induction h with
  | nil => exact ⟨[], .nil, by simp, rfl⟩
  | cons hhead _ ih =>
      obtain ⟨p, hcovers, hordered, hsingle, rfl⟩ := hfill _ _ _ _ hhead
      obtain ⟨parts, hparts, hall, rfl⟩ := ih
      exact ⟨p :: parts, .cons hcovers hparts, by simpa using ⟨⟨hordered, hsingle⟩, hall⟩, rfl⟩

/-- A list that is read is a bracket group. -/
theorem exists_group_of_list
    {fill : Filler} (hfill : r.FillsPhrases fill) {depth start stop next : Nat} {b : Bracket}
    {kind : NodeKind} {production : Production} {t : Tree}
    (h : r.list fill depth start stop b kind production = .ok (t, next)) :
    ∃ parts, (Phrase.group b parts).Spells r.tokens start ∧
      (∀ p ∈ parts, p.Ordered ∧ p.Single) ∧
      t = .node kind ⟨start, next⟩ (Phrase.partTrees parts (start + 1)) ∧
      next = start + (Phrase.group b parts).width ∧ next ≤ stop := by
  cases hresolve : Separated.resolve r.tokens ⟨start, stop⟩ b .comma with
  | error e => simp [list, hresolve, Attempt.ofScope, liftScope, Attempt.lift, Attempt.fail,
      bind, Except.bind] at h
  | ok separated =>
      rw [list_of_resolve hresolve] at h
      cases hitems : items (fun part => fill depth part production) kind separated.scope.range []
          separated.parts with
      | error failure => simp [hitems] at h
      | ok tree =>
          simp only [hitems, Except.ok.injEq, Prod.mk.injEq] at h
          obtain ⟨rfl, rfl⟩ := h
          obtain ⟨trees, rfl, hfilled⟩ := forall₂_of_items hitems
          obtain ⟨parts, hcovers, hall, rfl⟩ := exists_parts_of_fill hfill hfilled
          obtain ⟨hspells, hstop, rfl⟩ := Phrase.spells_group_of_resolve hresolve hcovers
          exact ⟨parts, hspells, hall, by simp [Scope.range, Phrase.partTrees_eq], rfl, hstop⟩

/-! ## Operands -/

/-- A token in the place of an operand is a phrase by itself. -/
theorem found_leaf
    {k : TokenKind} {kind : NodeKind} {start stop least : Nat}
    (hkind : kindAt r.tokens start = some k) (hleaf : NodeKind.ofToken? k = some kind)
    (hstart : start < stop) :
    r.Found (.leaf kind) start stop least (.leaf kind ⟨start, start + 1⟩) (start + 1) where
  spells := by simp [Phrase.Spells, hkind, hleaf]
  ordered := trivial
  single := trivial
  fits := trivial
  halts := by simp [Phrase.spine]
  tree_eq := rfl
  next_eq := rfl
  next_le := hstart

/-- An operation before an operand makes a phrase of it. -/
theorem Found.before
    {p : Phrase} {k : TokenKind} {op : Operation} {start stop least next : Nat} {t : Tree}
    (h : r.Found p (start + 1) stop Operation.beforePriority t next)
    (hkind : kindAt r.tokens start = some k) (hbefore : k.before = some op)
    (hhalts : Halts r.tokens stop Operation.beforePriority next) :
    r.Found (.before op p) start stop least (.node (.operation op) ⟨start, t.range.stop⟩ [t])
      next where
  spells := ⟨by simp [hkind, hbefore], h.spells⟩
  ordered := ⟨h.fits.followsBefore h.ordered, h.ordered⟩
  single := h.single
  fits := trivial
  halts := by
    intro f hf
    rcases List.mem_append.mp hf with hf | hf
    · exact h.halts f hf
    · obtain rfl := List.mem_singleton.mp hf
      exact hhalts
  tree_eq := by
    simp only [h.tree_eq, Phrase.tree, Phrase.range_tree, Tree.node.injEq,
      TokenRange.mk.injEq, true_and, and_true]
    omega
  next_eq := by
    have := h.next_eq
    simp only [Phrase.width]
    omega
  next_le := h.next_le

/-- A bracket group in the place of an operand is a phrase by itself. -/
theorem found_group
    {b : Bracket} {parts : List Phrase} {start stop least : Nat}
    (hspells : (Phrase.group b parts).Spells r.tokens start)
    (hall : ∀ p ∈ parts, p.Ordered ∧ p.Single) (hlength : b = .paren → parts.length = 1)
    (hstop : start + (Phrase.group b parts).width ≤ stop) :
    r.Found (.group b parts) start stop least ((Phrase.group b parts).tree start)
      (start + (Phrase.group b parts).width) where
  spells := hspells
  ordered := Phrase.allOrdered_iff.mpr fun p hp => (hall p hp).1
  single := ⟨hlength, Phrase.allSingle_iff.mpr fun p hp => (hall p hp).2⟩
  fits := trivial
  halts := by simp [Phrase.spine]
  tree_eq := rfl
  next_eq := rfl
  next_le := hstop

/-- Parentheses around a phrase cover their scope. -/
theorem covers_parens_of_matching
    {tokens : Array Token} {range : TokenRange} {scope : Scope} {p : Phrase}
    (h : Scope.matching tokens range .paren = .ok scope) (hp : p.Covers tokens scope.interior) :
    (Phrase.group .paren [p]).Covers tokens scope.range := by
  obtain ⟨-, hlength, -⟩ := Scope.bounds_of_matching h
  obtain ⟨hopening, hclosing⟩ := Scope.marks_of_matching h
  have hlast : scope.start + 1 + p.width = scope.stop - 1 := hp.stop_eq
  refine ⟨⟨hopening, ⟨hp.spells, trivial⟩, ?_⟩, ?_⟩
  · simpa [Phrase.partsWidth, Phrase.laterWidth, Scope.range, hlast] using hclosing
  · simp only [Phrase.width, Phrase.partsWidth, Phrase.laterWidth, Scope.range]
    omega

/-- Grouping parentheses that are read hold a single phrase. -/
theorem exists_found_of_subexpression
    {fill : Filler} (hfill : r.FillsPhrases fill) {depth start stop next least : Nat} {t : Tree}
    (h : r.subexpression fill depth start stop = .ok (t, next)) :
    ∃ p, r.Found (.group .paren [p]) start stop least t next := by
  cases hmatching : Scope.matching r.tokens ⟨start, stop⟩ .paren with
  | error e => simp [subexpression, hmatching, Attempt.ofScope, liftScope, Attempt.lift,
      Attempt.fail, bind, Except.bind] at h
  | ok scope =>
      cases hempty : scope.interior.isEmpty with
      | true => simp [subexpression, hmatching, Attempt.ofScope, liftScope, Attempt.lift,
          Attempt.fail, bind, Except.bind, hempty] at h
      | false =>
          rw [subexpression_of_matching hmatching hempty] at h
          cases hinner : fill depth scope.interior .subexpression with
          | error failure => simp [hinner] at h
          | ok inner =>
              simp only [hinner, Except.ok.injEq, Prod.mk.injEq] at h
              obtain ⟨rfl, rfl⟩ := h
              obtain ⟨p, hcovers, hordered, hsingle, rfl⟩ := hfill _ _ _ _ hinner
              obtain ⟨hspells, hwidth⟩ := covers_parens_of_matching hmatching hcovers
              obtain ⟨hstart, -, hstop, -⟩ := Scope.bounds_of_matching hmatching
              obtain ⟨first, last⟩ := scope
              simp only [Scope.range] at hspells hwidth hstart hstop
              subst hstart hwidth
              exact ⟨p, found_group hspells (by simpa using ⟨hordered, hsingle⟩) (fun _ => rfl)
                hstop⟩

/-- An operand that is read with the operations before it is a phrase. -/
theorem exists_found_of_prefixed
    (hplain : ∀ i, r.isInserted i .lparen = false) {climb : Climber} {fill : Filler}
    (hclimb : r.ClimbsPhrases climb) (hfill : r.FillsPhrases fill)
    {depth start stop next : Nat} (least : Nat) {t : Tree} (hstart : start < stop)
    (h : r.prefixed climb fill depth start stop = .ok (t, next)) :
    ∃ p, r.Found p start stop least t next ∧ p.last? = none := by
  cases hkind : kindAt r.tokens start with
  | none => simp [prefixed, kind?_eq, hkind, Attempt.fail] at h
  | some k =>
      cases hbefore : k.before with
      | some op =>
          by_cases hstop : stop ≤ start + 1
          · simp [prefixed, kind?_eq, hkind, hbefore, hstop, Attempt.fail] at h
          rw [prefixed_of_before hkind hbefore (by omega)] at h
          by_cases hdepth : r.limit ≤ depth
          · simp [deeper, hdepth, Attempt.fail] at h
          rw [deeper, if_neg hdepth] at h
          cases hoperand : climb (depth + 1) (start + 1) stop Operation.beforePriority with
          | error failure => simp [hoperand] at h
          | ok result =>
              obtain ⟨operand, after⟩ := result
              simp only [hoperand, Except.ok.injEq, Prod.mk.injEq] at h
              obtain ⟨rfl, rfl⟩ := h
              obtain ⟨q, hq, hhalts⟩ := hclimb _ _ _ _ _ _ (by omega) hoperand
              exact ⟨.before op q, hq.before hkind hbefore hhalts, rfl⟩
      | none =>
          cases hleaf : NodeKind.ofToken? k with
          | some kind =>
              rw [prefixed_of_leaf hkind hleaf] at h
              simp only [Except.ok.injEq, Prod.mk.injEq] at h
              obtain ⟨rfl, rfl⟩ := h
              exact ⟨.leaf kind, found_leaf hkind hleaf hstart, rfl⟩
          | none =>
              cases hopens : k.opens with
              | none => simp [prefixed, primary, kind?_eq, hkind, hbefore, hleaf, hopens,
                  Attempt.fail] at h
              | some b =>
                  obtain rfl := TokenKind.opens_eq_some_iff.mp hopens
                  by_cases hb : b = .paren
                  · subst hb
                    rw [prefixed_of_paren hkind (hplain start)] at h
                    obtain ⟨p, hp⟩ := exists_found_of_subexpression hfill h
                    exact ⟨_, hp, rfl⟩
                  · have hproduction : ∃ production, production ≠ .grouping ∧
                        r.prefixed climb fill depth start stop =
                          r.list fill depth start stop b b.nodeKind production :=
                      prefixed_of_list hkind hb
                    obtain ⟨production, -, hlist⟩ := hproduction
                    rw [hlist] at h
                    obtain ⟨parts, hspells, hall, rfl, rfl, hstop⟩ := exists_group_of_list hfill h
                    exact ⟨_, found_group hspells hall (fun h => absurd h hb) hstop, rfl⟩

/-! ## Growing operands -/

/-- A token that belongs to an operand stands after it or between it and another one. -/
theorem cases_of_not_halts
    {tokens : Array Token} {stop least pos : Nat} {k : TokenKind}
    (hkind : kindAt tokens pos = some k) (h : ¬ Halts tokens stop least pos) :
    pos < stop ∧
      ((∃ b : Bracket, least ≤ Operation.afterPriority ∧ k = .punctuation b.opening) ∨
        (∃ op, least ≤ Operation.afterPriority ∧ k.after = some op) ∨
        ∃ op, k.between = some op ∧ least ≤ op.priority) := by
  by_cases hpos : stop ≤ pos
  · exact absurd (halts_of_le hpos) h
  refine ⟨by omega, ?_⟩
  by_contra hnone
  simp only [not_or, not_exists, not_and] at hnone
  obtain ⟨hopens, hafter, hbetween⟩ := hnone
  apply h
  intro k' _ hk'
  obtain rfl : k = k' := by simpa [hkind] using hk'
  refine ⟨fun hle => ⟨?_, ?_⟩, fun op hop => ?_⟩
  · cases hb : k.opens with
    | none => rfl
    | some b => exact absurd (TokenKind.opens_eq_some_iff.mp hb) (hopens b hle)
  · cases hop : k.after with
    | none => rfl
    | some op => exact absurd hop (hafter op hle)
  · have := hbetween op hop
    omega

/-- An operation between operands is read only if it may follow and has a right operand. -/
theorem of_grow_between
    {climb : Climber} {fill : Filler} {depth stop least steps pos : Nat}
    {previous : Option Operation} {operand : Tree} {k : TokenKind} {op : Operation}
    {result : Tree × Nat} (hpos : pos < stop) (hkind : kindAt r.tokens pos = some k)
    (hbetween : k.between = some op) (hle : least ≤ op.priority)
    (h : r.grow climb fill depth stop least (steps + 1) previous operand pos = .ok result) :
    clashes previous op = false ∧ pos + 1 < stop := by
  have hopens := TokenKind.opens_eq_none_of_between hbetween
  have hafter := TokenKind.after_eq_none_of_between hbetween
  rw [grow, if_neg (by omega), kind?_eq, hkind] at h
  simp only [hopens, hafter, hbetween, ite_self, if_neg (Nat.not_lt.mpr hle)] at h
  cases hclashes : clashes previous op with
  | true => simp [hclashes, Attempt.failAfter] at h
  | false =>
      refine ⟨rfl, ?_⟩
      by_contra hstop
      simp [hclashes, Nat.not_lt.mp hstop, Attempt.failAfter] at h

/-- A phrase grows by an operator after it. -/
theorem Found.after
    {p : Phrase} {start stop least pos : Nat} {operand : Tree} {k : TokenKind} {op : Operation}
    (hp : r.Found p start stop least operand pos) (hpos : pos < stop)
    (hkind : kindAt r.tokens pos = some k) (hafter : k.after = some op)
    (hleast : least ≤ Operation.afterPriority) :
    r.Found (.after p op) start stop least
      (.node (.operation op) ⟨operand.range.start, pos + 1⟩ [operand]) (pos + 1) := by
  obtain ⟨hspells, hordered, hsingle, hfits, hhalts, rfl, rfl, hnext⟩ := hp
  have hprecedes : p.PrecedesAfter := by
    apply Phrase.precedesAfter_of_lt_least hordered
    intro f hf
    by_contra hle
    have hnone := ((hhalts f hf k hpos hkind).1 (Nat.not_lt.mp hle)).2
    simp [hafter] at hnone
  exact {
    spells := ⟨hspells, by simp [hkind, hafter]⟩
    ordered := ⟨hprecedes, hordered⟩
    single := hsingle
    fits := ⟨hleast, hfits⟩
    halts := by simp [Phrase.spine]
    tree_eq := by simp [Phrase.tree, Nat.add_assoc]
    next_eq := rfl
    next_le := hpos }

/-- A phrase grows by a bracket group after it. -/
theorem Found.applied
    {p : Phrase} {start stop least pos : Nat} {operand : Tree} {b : Bracket} {parts : List Phrase}
    (hp : r.Found p start stop least operand pos) (hpos : pos < stop)
    (hgroup : (Phrase.group b parts).Spells r.tokens pos)
    (hall : ∀ q ∈ parts, q.Ordered ∧ q.Single)
    (hstop : pos + (Phrase.group b parts).width ≤ stop)
    (hleast : least ≤ Operation.afterPriority) :
    r.Found (.applied p b parts) start stop least
      (.node (.operation (groupRole b).1)
        ⟨operand.range.start, pos + (Phrase.group b parts).width⟩
        [operand, .node (groupRole b).2.1 ⟨pos, pos + (Phrase.group b parts).width⟩
          (Phrase.partTrees parts (pos + 1))]) (pos + (Phrase.group b parts).width) := by
  obtain ⟨hspells, hordered, hsingle, hfits, hhalts, rfl, rfl, hnext⟩ := hp
  have hopens : (TokenKind.punctuation b.opening).opens = some b :=
    TokenKind.opens_eq_some_iff.mpr rfl
  have hprecedes : p.PrecedesAfter := by
    apply Phrase.precedesAfter_of_lt_least hordered
    intro f hf
    by_contra hle
    have hnone := ((hhalts f hf _ hpos hgroup.1).1 (Nat.not_lt.mp hle)).1
    simp [hopens] at hnone
  exact {
    spells := Phrase.spells_applied_iff.mpr ⟨hspells, hgroup⟩
    ordered := ⟨hprecedes, hordered, Phrase.allOrdered_iff.mpr fun q hq => (hall q hq).1⟩
    single := ⟨hsingle, Phrase.allSingle_iff.mpr fun q hq => (hall q hq).2⟩
    fits := ⟨hleast, hfits⟩
    halts := by simp [Phrase.spine]
    tree_eq := by simp [Phrase.tree, Phrase.width, Nat.add_assoc]
    next_eq := by simp [Phrase.width, Nat.add_assoc]
    next_le := hstop }

/-- A phrase grows by an operation between operands and its right operand. -/
theorem Found.between
    {p q : Phrase} {start stop least pos next : Nat} {operand right : Tree} {k : TokenKind}
    {op : Operation} (hp : r.Found p start stop least operand pos) (hpos : pos < stop)
    (hkind : kindAt r.tokens pos = some k) (hbetween : k.between = some op)
    (hle : least ≤ op.priority) (hclashes : clashes p.last? op = false)
    (hq : r.Found q (pos + 1) stop op.rightLeast right next)
    (hnext : Halts r.tokens stop op.rightLeast next) :
    r.Found (.between p op q) start stop least
      (.node (.operation op) ⟨operand.range.start, right.range.stop⟩ [operand, right]) next := by
  obtain ⟨hspells, hordered, hsingle, hfits, hhalts, rfl, rfl, -⟩ := hp
  obtain ⟨hqSpells, hqOrdered, hqSingle, hqFits, hqHalts, rfl, rfl, hqNext⟩ := hq
  have hleft : p.LeftOf op := by
    refine Phrase.leftOf_of_lt_least (fun f hf => ?_) hclashes
    exact (hhalts f hf k hpos hkind).2 op hbetween
  exact {
    spells := ⟨hspells, by simp [hkind, hbetween], hqSpells⟩
    ordered := ⟨(TokenKind.entry_of_between hbetween).1, hleft, hqFits.rightOf, hordered,
      hqOrdered⟩
    single := ⟨hsingle, hqSingle⟩
    fits := ⟨hle, hfits⟩
    halts := by
      intro f hf
      rcases List.mem_append.mp hf with hf | hf
      · exact hqHalts f hf
      · obtain rfl := List.mem_singleton.mp hf
        exact hnext
    tree_eq := by
      simp only [Phrase.tree, Phrase.range_tree, Tree.node.injEq, TokenRange.mk.injEq, true_and,
        and_true]
      omega
    next_eq := by
      simp only [Phrase.width]
      omega
    next_le := hqNext }

/-- The right operand of an operation is read with the least priority that it asks for. -/
theorem exists_found_of_rightOperand
    {climb : Climber} (hclimb : r.ClimbsPhrases climb) {depth pos stop next : Nat}
    {op : Operation} {right : Tree} (hpos : pos + 1 < stop)
    (h : r.rightOperand climb depth pos stop op = .ok (right, next)) :
    ∃ q, r.Found q (pos + 1) stop op.rightLeast right next ∧
      Halts r.tokens stop op.rightLeast next := by
  unfold rightOperand at h
  split at h
  · rename_i hright
    rw [Operation.rightLeast_of_right hright]
    by_cases hdepth : r.limit ≤ depth
    · simp [deeper, hdepth, Attempt.fail] at h
    · rw [deeper, if_neg hdepth] at h
      exact hclimb _ _ _ _ _ _ hpos h
  · rename_i hright
    rw [Operation.rightLeast_of_ne_right hright]
    exact hclimb _ _ _ _ _ _ hpos h

/-- Growing an operand that is a phrase yields a phrase that nothing that follows belongs to. -/
theorem exists_found_of_grow
    {climb : Climber} {fill : Filler} (hclimb : r.ClimbsPhrases climb)
    (hfill : r.FillsPhrases fill) {depth start stop least pos next steps : Nat} {p : Phrase}
    {operand t : Tree} (hp : r.Found p start stop least operand pos) (hsteps : stop - pos ≤ steps)
    (h : r.grow climb fill depth stop least steps p.last? operand pos = .ok (t, next)) :
    ∃ q, r.Found q start stop least t next ∧ Halts r.tokens stop least next := by
  induction steps generalizing p operand pos with
  | zero =>
      cases h
      exact ⟨p, hp, halts_of_le (by omega)⟩
  | succ steps ih =>
      by_cases hhalts : Halts r.tokens stop least pos
      · by_cases hsize : pos < stop → pos < r.tokens.size
        · rw [grow_of_halts hhalts hsize] at h
          cases h
          exact ⟨p, hp, hhalts⟩
        · have hnone : kindAt r.tokens pos = none := by
            have : r.tokens[pos]? = none := Array.getElem?_eq_none (by omega)
            simp [kindAt, this]
          have hpos : ¬ stop ≤ pos := by omega
          simp [grow, hpos, kind?_eq, hnone, Attempt.failAfter] at h
      · cases hkind : kindAt r.tokens pos with
        | none => exact absurd (fun k _ hk => by simp [hkind] at hk) hhalts
        | some k =>
            obtain ⟨hpos, hcases⟩ := cases_of_not_halts hkind hhalts
            rcases hcases with ⟨b, hleast, rfl⟩ | ⟨op, hleast, hafter⟩ | ⟨op, hbetween, hle⟩
            · rw [grow_applied hpos hkind hleast] at h
              unfold Reading.applied at h
              cases hlist : r.list fill depth pos stop b (groupRole b).2.1 (groupRole b).2.2 with
              | error failure => simp [hlist, Attempt.after] at h
              | ok result =>
                  obtain ⟨arguments, after⟩ := result
                  simp only [hlist, Attempt.after] at h
                  obtain ⟨parts, hspells, hall, rfl, rfl, hstop⟩ := exists_group_of_list hfill hlist
                  have hwidth := (Phrase.group b parts).width_pos
                  have hfound := hp.applied hpos hspells hall hstop hleast
                  exact ih hfound (by omega) h
            · rw [grow_after hpos hkind hafter hleast] at h
              exact ih (hp.after hpos hkind hafter hleast) (by omega) h
            · obtain ⟨hclashes, hstop⟩ := of_grow_between hpos hkind hbetween hle h
              rw [grow_between hstop hkind hbetween hle hclashes] at h
              cases hright : r.rightOperand climb depth pos stop op with
              | error failure => simp [hright, Attempt.after] at h
              | ok result =>
                  obtain ⟨right, after⟩ := result
                  simp only [hright, Attempt.after] at h
                  obtain ⟨q, hq, hnext⟩ := exists_found_of_rightOperand hclimb hstop hright
                  have hwidth := hq.next_eq
                  exact ih (hp.between hpos hkind hbetween hle hclashes hq hnext) (by omega) h

/-! ## Ranges -/

/-- Parentheses around all of a range are its scope and are dropped; otherwise nothing is. -/
theorem dropOuterParens_succ_cases
    {production : Production} {steps : Nat} {range inner : TokenRange}
    (h : r.dropOuterParens production (steps + 1) range = .ok inner) :
    (inner = range ∧ ∀ parts, ¬ (Phrase.group .paren parts).Covers r.tokens range) ∨
      ∃ scope, Scope.matching r.tokens range .paren = .ok scope ∧ scope.range = range ∧
        r.dropOuterParens production steps scope.interior = .ok inner := by
  rw [dropOuterParens] at h
  split at h
  · rename_i hfirst
    cases h
    refine .inl ⟨rfl, fun parts hp => ?_⟩
    rcases hfirst with hempty | hne
    · have hpos := (Phrase.group .paren parts).width_pos
      have hstop := hp.stop_eq
      have hzero := (TokenRange.isEmpty_iff_length_eq_zero _).mp hempty
      simp only [TokenRange.length] at hzero
      omega
    · exact hne hp.spells.1
  · cases hmatching : Scope.matching r.tokens range .paren with
    | error e => simp [hmatching, liftScope, bind, Except.bind] at h
    | ok scope =>
        simp only [hmatching, liftScope, bind, Except.bind] at h
        split at h
        · rename_i hstop
          cases h
          refine .inl ⟨rfl, fun parts hp => ?_⟩
          have hwhole := Phrase.matching_of_spells hp.spells (Nat.le_of_eq hp.stop_eq)
          rw [hwhole] at hmatching
          cases hmatching
          exact hstop hp.stop_eq
        · rename_i hstop
          split at h
          · simp at h
          · have hstart := (Scope.bounds_of_matching hmatching).1
            refine .inr ⟨scope, rfl, ?_, h⟩
            rw [Scope.range, hstart, Decidable.not_not.mp hstop]

/-- A phrase that covers what is left of a range without the parentheses around it has no
parentheses around it, and with them it covers the range. -/
theorem exists_covers_of_dropOuterParens
    {production : Production} {steps : Nat} {range inner : TokenRange} {p : Phrase}
    (hsteps : range.length ≤ steps) (h : r.dropOuterParens production steps range = .ok inner)
    (hp : p.Covers r.tokens inner) :
    p.isParens = false ∧ ∃ q : Phrase, q.Covers r.tokens range ∧ (p.Ordered → q.Ordered) ∧
      (p.Single → q.Single) ∧ (q.tree range.start).bare = (p.tree inner.start).bare := by
  induction steps generalizing range with
  | zero =>
      cases h
      have hpos := p.width_pos
      have hstop := hp.stop_eq
      simp only [TokenRange.length] at hsteps
      omega
  | succ steps ih =>
      obtain ⟨rfl, hnone⟩ | ⟨scope, hmatching, rfl, hdrop⟩ := dropOuterParens_succ_cases h
      · refine ⟨?_, p, hp, id, id, rfl⟩
        by_contra hparens
        obtain ⟨parts, rfl⟩ := Phrase.isParens_iff.mp (Bool.of_not_eq_false hparens)
        exact hnone parts hp
      · have hinner : scope.interior.length ≤ steps := by
          have hlength := (Scope.bounds_of_matching hmatching).2.1
          simp only [Scope.range, Scope.interior, TokenRange.length] at hsteps ⊢
          omega
        obtain ⟨hparens, q, hq, hordered, hsingle, htree⟩ := ih hinner hdrop
        refine ⟨hparens, .group .paren [q], covers_parens_of_matching hmatching hq,
          fun h => ⟨hordered h, trivial⟩, fun h => ⟨fun _ => rfl, hsingle h, trivial⟩, ?_⟩
        rw [Phrase.bare_tree_parens]
        exact htree

/-- A range that is filled by operands that are phrases is a phrase. -/
theorem fillsPhrases_fillWith
    {climb : Climber} (hclimb : r.ClimbsPhrases climb) : r.FillsPhrases (r.fillWith climb) := by
  intro depth range production t h
  rw [fillWith_eq] at h
  by_cases hdepth : r.limit ≤ depth
  · simp [deeper, hdepth, Attempt.fail] at h
  rw [deeper, if_neg hdepth] at h
  cases hdrop : r.dropOuterParens production range.length range with
  | error e => simp [hdrop, Attempt.fail] at h
  | ok inner =>
      simp only [hdrop, fillInner] at h
      split at h
      · simp [Attempt.fail] at h
      · rename_i hempty
        cases hread : climb (depth + 1) inner.start inner.stop 0 with
        | error failure => simp [hread] at h
        | ok result =>
            obtain ⟨tree, next⟩ := result
            simp only [hread] at h
            split at h
            · simp [Attempt.failAfter] at h
            · cases h
              have hinner : inner.start < inner.stop := by
                simpa [TokenRange.isEmpty] using hempty
              obtain ⟨p, hp, -⟩ := hclimb _ _ _ _ _ _ hinner hread
              have hcovers : p.Covers r.tokens inner := by
                refine ⟨hp.spells, ?_⟩
                have := hp.next_eq
                have := hp.next_le
                omega
              obtain ⟨hparens, q, hq, hordered, hsingle, htree⟩ :=
                exists_covers_of_dropOuterParens (Nat.le_refl _) hdrop hcovers
              refine ⟨q, hq, hordered hp.ordered, hsingle hp.single, ?_⟩
              rw [htree, Phrase.bare_tree_of_not_isParens hparens, hp.tree_eq]

/-! ## All levels -/

/-- Whatever is read from tokens as they were written is a phrase. -/
theorem climbsPhrases_and_fillsPhrases
    (hplain : ∀ i, r.isInserted i .lparen = false) (fuel : Nat) :
    r.ClimbsPhrases (r.climb fuel) ∧ r.FillsPhrases (r.fill fuel) := by
  induction fuel with
  | zero =>
      constructor
      · intro depth start stop least t next _ h
        simp [climb, Attempt.fail] at h
      · intro depth range production t h
        simp [fill, Attempt.fail] at h
  | succ fuel ih =>
      obtain ⟨hclimb, hfill⟩ := ih
      constructor
      · intro depth start stop least t next hstart h
        rw [climb, climbWith] at h
        cases hprefixed : r.prefixed (r.climb fuel) (r.fill fuel) depth start stop with
        | error failure => simp [hprefixed] at h
        | ok result =>
            obtain ⟨operand, pos⟩ := result
            simp only [hprefixed] at h
            obtain ⟨p, hp, hlast⟩ :=
              exists_found_of_prefixed hplain hclimb hfill least hstart hprefixed
            rw [← hlast] at h
            exact exists_found_of_grow hclimb hfill hp (Nat.le_refl _) h
      · intro depth range production t h
        rw [fill] at h
        exact fillsPhrases_fillWith hclimb depth range production t h

/-- The tree of a whole range is that of a phrase that covers the range. -/
theorem exists_covers_of_whole
    (hplain : ∀ i, r.isInserted i .lparen = false) {range : TokenRange}
    {production : Production} {t : Tree} (h : r.whole range production = .ok t) :
    ∃ p : Phrase, p.Covers r.tokens range ∧ p.Ordered ∧ p.Single ∧
      t = (p.tree range.start).bare :=
  (climbsPhrases_and_fillsPhrases hplain _).2 0 range production t h

/-- The tree of the longest expression at the start of a range is that of a phrase, and nothing
that follows belongs to it. -/
theorem exists_found_of_longest
    (hplain : ∀ i, r.isInserted i .lparen = false) {range : TokenRange} {t : Tree} {next : Nat}
    (h : r.longest range = .ok (t, next)) :
    ∃ p, r.Found p range.start range.stop 0 t next ∧ Halts r.tokens range.stop 0 next := by
  unfold longest at h
  split at h
  · simp [Attempt.fail] at h
  · rename_i hempty
    have hstart : range.start < range.stop := by simpa [TokenRange.isEmpty] using hempty
    exact (climbsPhrases_and_fillsPhrases hplain _).1 0 range.start range.stop 0 t next hstart h

end Reading

end ExprFront
