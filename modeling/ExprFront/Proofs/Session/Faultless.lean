import ExprFront.Proofs.Grouping.Faultless
import ExprFront.Proofs.Reading.Faultless
import ExprFront.Proofs.Session.Checked

/-!
# Sessions without faults

Whatever the tokens, the configuration and the arena of a session are, its
answer to a call in a range of the tokens is a value or a refusal. What is read
is delivered without a fault, so only reading and grouping are left. A program
is read statement by statement; each of its trees is new, so it can be put
below the program.
-/

namespace ExprFront

/-! ## Ranges that are mapped back -/

/-- The ranges of all nodes of the tree. -/
def Tree.ranges : Tree → List TokenRange
  | .node _ range ts => range :: ts.flatMap ranges

theorem Tree.forall_ranges_node
    {P : TokenRange → Prop} {kind : NodeKind} {range : TokenRange} {ts : List Tree} :
    (∀ r ∈ (node kind range ts).ranges, P r) ↔ P range ∧ ∀ t ∈ ts, ∀ r ∈ t.ranges, P r := by
  rw [ranges, List.forall_mem_cons]
  simp only [List.mem_flatMap, forall_exists_index, and_imp]
  exact and_congr_right fun _ => ⟨fun h t ht r hr => h r t ht hr, fun h r t ht hr => h t ht r hr⟩

theorem Tree.ranges_mapRanges
    (f : TokenRange → TokenRange) (t : Tree) : (t.mapRanges f).ranges = t.ranges.map f := by
  induction t with
  | node kind range ts ih =>
      rw [Tree.mapRanges_node, ranges, ranges, List.map_cons, List.map_flatMap, List.flatMap_map]
      congr 1
      exact List.flatMap_congr fun t ht => ih t ht

theorem Tree.ranges_bare_subset
    (t : Tree) : t.bare.ranges ⊆ t.ranges := by
  unfold Tree.bare
  split
  · intro r hr
    simp [ranges, hr]
  · exact List.Subset.refl _

theorem Phrase.ranges_partTrees
    {parts : List Phrase}
    (hparts : ∀ p ∈ parts, ∀ start, ∀ r ∈ (p.tree start).ranges, r.start < r.stop)
    (start : Nat) : ∀ t ∈ partTrees parts start, ∀ r ∈ t.ranges, r.start < r.stop := by
  induction parts generalizing start with
  | nil => simp [partTrees]
  | cons p ps ih =>
      rw [partTrees, List.forall_mem_cons]
      refine ⟨fun r hr => hparts p List.mem_cons_self _ r (Tree.ranges_bare_subset _ hr), ?_⟩
      exact ih (fun q hq => hparts q (List.mem_cons_of_mem p hq)) _

/-- Every node of the tree of a phrase spans at least one token. -/
theorem Phrase.ranges_tree
    (p : Phrase) (start : Nat) : ∀ r ∈ (p.tree start).ranges, r.start < r.stop := by
  induction p generalizing start with
  | leaf kind =>
      rw [tree, Tree.leaf, Tree.forall_ranges_node]
      exact ⟨Nat.lt_succ_self start, by simp⟩
  | group b parts ih =>
      rw [tree, Tree.forall_ranges_node]
      exact ⟨by dsimp only; omega, ranges_partTrees ih _⟩
  | before op operand ih =>
      rw [tree, Tree.forall_ranges_node, List.forall_mem_singleton]
      exact ⟨by dsimp only; omega, ih _⟩
  | after operand op ih =>
      rw [tree, Tree.forall_ranges_node, List.forall_mem_singleton]
      exact ⟨by dsimp only; omega, ih _⟩
  | applied callee b parts ihCallee ihParts =>
      rw [tree, Tree.forall_ranges_node, List.forall_mem_cons, List.forall_mem_singleton,
        Tree.forall_ranges_node]
      exact ⟨by dsimp only; omega, ihCallee _, by dsimp only; omega, ranges_partTrees ihParts _⟩
  | between left op right ihLeft ihRight =>
      rw [tree, Tree.forall_ranges_node, List.forall_mem_cons, List.forall_mem_singleton]
      exact ⟨by dsimp only; omega, ihLeft _, ihRight _⟩

/-- A range that is mapped back to some tokens is not reversed. -/
theorem Grouped.start_lt_of_sourceRange
    {g : Grouped} {r : TokenRange} (h : (g.sourceRange r).start < (g.sourceRange r).stop) :
    r.start < r.stop := by
  by_contra hreversed
  have hnone : g.copied r = [] := by
    rw [copied, Array.extract_empty_of_stop_le_start (by omega)]
    rfl
  simp only [sourceRange, hnone, List.head?_nil] at h
  split at h <;> simp at h

/-- The ranges of a tree that is read from grouped tokens can be mapped back. -/
theorem Reading.ranges_of_grouped
    {tokens : Array Token} {range : TokenRange} {limit : Nat} {g : Grouped} {t : Tree}
    {production : Production} (hgroup : groupTokens tokens range limit = .ok g)
    (h : (grouped g limit).whole ⟨0, g.entries.size⟩ production = .ok t) :
    ∀ r ∈ t.ranges, r.start < r.stop := by
  obtain ⟨p, -, htree⟩ := exists_accepted_of_grouped hgroup h
  intro r hr
  apply Grouped.start_lt_of_sourceRange (g := g)
  have hmapped : g.sourceRange r ∈ (t.mapRanges g.sourceRange).ranges := by
    rw [Tree.ranges_mapRanges]
    exact List.mem_map_of_mem hr
  rw [htree] at hmapped
  exact p.ranges_tree range.start _ (Tree.ranges_bare_subset _ hmapped)

/-! ## Looking for groups -/

namespace Guarded

/-- Whether a bracket group stands directly after an operand somewhere in the range. -/
def hasGroupAfterOperand (tokens : Array Token) (range : TokenRange) : Except Fault Bool :=
  (List.range' (range.start + 1) (range.length - 1)).anyM fun i => do
    let t ← token tokens i
    let previous ← token tokens (i - 1)
    return t.kind.opens.isSome && previous.kind.canEndOperand

theorem anyM_eq_ok
    {α : Type} {check : α → Except Fault Bool} {p : α → Bool} {items : List α}
    (h : ∀ a ∈ items, check a = .ok (p a)) : items.anyM check = .ok (items.any p) := by
  induction items with
  | nil => rfl
  | cons a items ih =>
      have htail := ih fun b hb => h b (List.mem_cons_of_mem a hb)
      rw [List.anyM, h a List.mem_cons_self, List.any_cons]
      cases p a with
      | true => rfl
      | false => exact htail

theorem hasGroupAfterOperand_eq
    {tokens : Array Token} {range : TokenRange} (h : range.Within tokens) :
    hasGroupAfterOperand tokens range = .ok (ExprFront.hasGroupAfterOperand tokens range) := by
  have hstart := h.start_le
  have hstop := h.stop_le
  apply anyM_eq_ok
  intro i hi
  obtain ⟨offset, hoffset, rfl⟩ := List.mem_range'.mp hi
  simp only [TokenRange.length] at hoffset
  obtain ⟨t, hsome, htoken⟩ := exists_token (by omega : range.start + 1 + 1 * offset < tokens.size)
  obtain ⟨previous, hsome', htoken'⟩ :=
    exists_token (by omega : range.start + 1 + 1 * offset - 1 < tokens.size)
  simp only [hsome, hsome', htoken, htoken', Option.any_some, bind, Except.bind]
  rfl

end Guarded

/-! ## Collapsing nodes that are there -/

namespace Guarded

/-- Nodes, which have to be there, are collapsed one after the other. -/
def absorbAll (a : Arena) : List NodeId → Except Fault Arena
  | [] => .ok a
  | id :: more =>
      if id < a.size then
        match a.absorb id with
        | .ok a => absorbAll a more
        | .error f => .error f
      else .error (.missingNode id)

theorem absorbAll_eq
    {a : Arena} {ids : List NodeId} (h : ∀ id ∈ ids, id < a.size) :
    absorbAll a ids = a.absorbAll ids := by
  induction ids generalizing a with
  | nil => rfl
  | cons id ids ih =>
      obtain ⟨hid, hids⟩ := List.forall_mem_cons.mp h
      rw [absorbAll, Arena.absorbAll, if_pos hid]
      cases habsorb : a.absorb id with
      | error f => rfl
      | ok b => exact ih fun other hother => Arena.size_absorb habsorb ▸ hids other hother

end Guarded

/-- All nodes of a plot are there when it is collapsed. -/
theorem Arena.Bears.absorbAll_eq
    {a : Arena} {parent : Option NodeId} {p : Plot} (h : a.Bears parent p)
    (hnodup : p.ids.Nodup) :
    Guarded.absorbAll a (a.descendants a.size [p.root] []) = a.simplify p.root := by
  apply Guarded.absorbAll_eq
  intro id hid
  rw [h.descendants_eq hnodup] at hid
  exact h.lt_size id (p.postorder_subset hid)

/-! ## Answers -/

theorem Attempt.Outcome.faultless
    {α : Type} {good : Prop} {attempt : Attempt α} {a : α}
    (h : Attempt.Outcome good attempt (.ok a)) : attempt.Faultless := by
  by_cases hgood : good
  · rw [h.1 hgood]
    exact Attempt.faultless_ok a
  · exact (h.2 hgood).faultless

/-- Grouped tokens are those of a phrase, so they are read as the phrase is or refused. -/
theorem Reading.faultless_whole_grouped
    {tokens : Array Token} {range : TokenRange} {limit : Nat} {g : Grouped}
    (hgroup : groupTokens tokens range limit = .ok g) (production : Production) :
    ((grouped g limit).whole ⟨0, g.entries.size⟩ production).Faultless := by
  obtain ⟨p, hcovers, hordered, hfilled, hentries⟩ :=
    Grouping.exists_filled_of_groupTokens hgroup
  exact Attempt.Outcome.faultless
    (outcome_whole_grouped hcovers.spells hordered hfilled hentries production)

namespace Session

variable {s : Session} {range : TokenRange}

/-- What is read within the tokens is read without a fault, by either route. -/
theorem faultless_content
    (hstop : range.stop ≤ s.tokens.size) : Faultless (s.content range) := by
  unfold content
  split
  · split
    · rename_i e hgroup
      exact faultless_of_isRefusal ((faultless_groupTokens hstop _).isRefusal hgroup)
    · rename_i g hgroup
      split
      · rename_i failure hfailure
        exact faultless_of_isRefusal
          (Reading.faultless_whole_grouped hgroup _ failure hfailure)
      · exact faultless_ok _
  · split
    · rename_i failure hfailure
      exact faultless_of_isRefusal
        (Reading.faultless_whole_plain hstop _ _ failure hfailure)
    · exact faultless_ok _

/-- Whatever is read, the node of the statement is put above it and collapsed, node by node. -/
theorem exists_collapsed
    {inner : NodeId} {after : Session}
    (h : (if s.normalizes range then s.normalized range else s.direct range) =
      (.ok inner, after)) :
    ∃ above, (after.arena.add .expression range).2.pushBack after.arena.size inner = .ok above ∧
      Guarded.absorbAll above (above.descendants above.size [after.arena.size] []) =
        above.simplify after.arena.size := by
  cases hcontent : s.content range with
  | error e =>
      have herror := read_error hcontent
      rw [h] at herror
      cases herror
  | ok t =>
      obtain ⟨p, arena, hanswer, -, hgains⟩ := read_delivers hcontent
      rw [h] at hanswer
      cases hanswer
      obtain ⟨above, hpush, habove⟩ := hgains.exists_add .expression range
      rw [List.map_singleton, Arena.pushBackAll_singleton] at hpush
      refine ⟨above, hpush, ?_⟩
      have hmem := List.mem_singleton_self (Plot.node arena.size .expression range [p])
      exact (habove.bears _ hmem).absorbAll_eq (Plot.nodup_ids_of_mem habove.nodup hmem)

theorem faultless_expression
    (hstop : range.stop ≤ s.tokens.size) : Faultless (s.expression range).1 := by
  cases hcontent : s.content range with
  | ok t =>
      obtain ⟨p, arena, hanswer, -⟩ := expression_delivers hcontent
      rw [hanswer]
      exact faultless_ok _
  | error e =>
      rw [expression_error hcontent]
      exact faultless_of_isRefusal ((faultless_content hstop).isRefusal hcontent)

theorem faultless_longest
    (hstop : range.stop ≤ s.tokens.size) : Faultless (s.longest range).1 := by
  cases hread : s.reading.longest range with
  | ok found =>
      obtain ⟨p, arena, hanswer, -⟩ := longest_delivers hread
      rw [hanswer]
      exact faultless_ok _
  | error failure =>
      have hrefusal := Reading.faultless_longest_plain hstop _ failure hread
      simp only [longest, hread, refuse]
      exact faultless_of_isRefusal hrefusal

/-- The statements of a program are read one after the other without a fault. -/
theorem Drafts.faultless
    {id : NodeId} {index : Nat} {ps : List Plot} {statements : List Statement}
    (h : s.Drafts id range index ps) (horder : Statement.InOrder range.stop index statements)
    (hstop : range.stop ≤ s.tokens.size) :
    Faultless (programStatements id statements s).1 := by
  induction statements generalizing s index ps with
  | nil => exact faultless_ok _
  | cons statement more ih =>
      obtain ⟨hindex, hle, hend, hmore⟩ := horder
      rw [programStatements]
      split
      · exact ih h (hmore.mono (Nat.le_trans hindex hle)) hstop
      have hexpression := faultless_expression (Nat.le_trans hend hstop)
      split
      · rename_i e after hanswer
        exact faultless_of_isRefusal (hexpression.isRefusal (by rw [hanswer]))
      · rename_i child after hanswer
        obtain ⟨arena, q, hpush, hdrafts⟩ := h.step hindex hle hend hanswer
        obtain ⟨t, ⟨p, kept, hdelivered, -⟩, -⟩ := exists_delivers_of_expression hanswer
        rw [hanswer] at hdelivered
        cases hdelivered
        rw [hpush]
        exact ih hdrafts hmore hstop

theorem faultless_program
    {statements : List Statement} (hstop : range.stop ≤ s.tokens.size)
    (hsplit : Statement.split s.tokens range = .ok statements) :
    Faultless (s.program range statements).1 :=
  (s.drafts_nil range).faultless (Statement.inOrder_of_splitFrom hsplit) hstop

end Session

end ExprFront
