import ExprFront.Proofs.Arena.Copied
import ExprFront.Proofs.Arena.Simplified
import ExprFront.Session

/-!
# What a session delivers

Reading an expression and keeping it in the arena are two things. `content` is
the first alone: the tree that is read in a range, by the route that the
configuration asks for. The second never fails: whenever there is a content, the
session delivers its finished tree as a new plot, and otherwise the error of the
content. So every question about the answers of a session is one about trees.
-/

namespace ExprFront

namespace Arena

open Plot

variable {a b : Arena}

theorem pushBackAll_singleton
    (a : Arena) (parent child : NodeId) :
    a.pushBackAll parent [child] = a.pushBack parent child := by
  simp only [pushBackAll]
  cases a.pushBack parent child <;> rfl

/-- A gained plot stays one when it is collapsed. -/
theorem Gains.exists_simplify
    {p : Plot} (h : a.Gains b [p]) :
    ∃ c, b.simplify p.root = .ok c ∧ a.Gains c [p.simplified] := by
  have hp := List.mem_singleton_self p
  have hfresh : ∀ id ∈ p.ids, a.size ≤ id := fun id hid =>
    h.fresh id (ids_subset_flatMap hp id hid)
  obtain ⟨c, hsimplify, hbears, hsame, -⟩ :=
    (h.bears p hp).exists_simplify (nodup_ids_of_mem h.nodup hp)
  refine ⟨c, hsimplify, ?_, ?_, ?_, ?_⟩
  · intro id hid
    rw [hsame id fun hmem => Nat.not_lt.mpr (hfresh id hmem) hid, h.extended id hid]
  · intro q hq
    rwa [List.mem_singleton.mp hq]
  · intro id hid
    rw [List.flatMap_singleton] at hid
    exact hfresh id (p.ids_simplified_sublist.subset hid)
  · rw [List.flatMap_singleton]
    exact (nodup_ids_of_mem h.nodup hp).sublist p.ids_simplified_sublist

end Arena

/-- The tree as it is kept: collapsed if the configuration asks for that. -/
def Config.finish (config : Config) (t : Tree) : Tree :=
  if config.simplify then t.simplified else t

namespace Session

variable {s : Session} {range : TokenRange}

/-! ## Delivered trees -/

/-- The answer is the root of a new plot of the tree, and nothing else has changed. -/
def Delivers (s : Session) (answer : Answer NodeId) (t : Tree) : Prop :=
  ∃ (p : Plot) (arena : Arena), answer = (.ok p.root, { s with arena }) ∧ p.tree = t ∧
    s.arena.Gains arena [p]

/-- A delivered tree is the tree of the root in the arena. -/
theorem Delivers.tree?_eq
    {answer : Answer NodeId} {t : Tree} {root : NodeId} {s' : Session}
    (h : s.Delivers answer t) (hanswer : answer = (.ok root, s')) :
    s'.arena.tree? root = some t := by
  obtain ⟨p, arena, heq, rfl, hgains⟩ := h
  obtain ⟨rfl, rfl⟩ : p.root = root ∧ { s with arena } = s' := by
    simpa [hanswer, eq_comm] using heq
  have hp := List.mem_singleton_self p
  exact (hgains.bears p hp).tree?_eq (Plot.nodup_ids_of_mem hgains.nodup hp)

/-- A delivered tree passes the check if it is well-formed. -/
theorem Delivers.check_eq_ok
    {answer : Answer NodeId} {t : Tree} {root : NodeId} {s' : Session}
    (h : s.Delivers answer t) (hanswer : answer = (.ok root, s')) (hwell : t.WellFormed) :
    s'.arena.check root = .ok () := by
  obtain ⟨p, arena, heq, rfl, hgains⟩ := h
  obtain ⟨rfl, rfl⟩ : p.root = root ∧ { s with arena } = s' := by
    simpa [hanswer, eq_comm] using heq
  have hp := List.mem_singleton_self p
  exact (hgains.bears p hp).check_eq_ok (Plot.nodup_ids_of_mem hgains.nodup hp) hwell

theorem Delivers.isOk
    {answer : Answer NodeId} {t : Tree} (h : s.Delivers answer t) : answer.1.isOk = true := by
  obtain ⟨p, arena, rfl, -⟩ := h
  rfl

/-- An answer that is no error. -/
theorem exists_eq_of_isOk
    {α : Type} {answer : Answer α} (h : answer.1.isOk = true) :
    ∃ a after, answer = (.ok a, after) := by
  obtain ⟨result, after⟩ := answer
  cases result with
  | ok a => exact ⟨a, after, rfl⟩
  | error e => cases h

/-- Once the node of a statement is put above a root, only collapsing is left to do. -/
theorem enclose_of_pushBack
    {arena above : Arena} {range : TokenRange} {inner : NodeId}
    (h : (arena.add .expression range).2.pushBack arena.size inner = .ok above) :
    enclose { s with arena } range inner =
      (if s.config.simplify then above.simplify arena.size else .ok above).map (arena.size, ·) := by
  simp only [enclose, Arena.add_fst, h, bind, Except.bind]
  by_cases hsimplify : s.config.simplify = true
  · simp only [hsimplify, if_true]
    cases above.simplify arena.size <;> rfl
  · simp only [hsimplify]
    rfl

/-- The node of a statement is put above a delivered tree. -/
theorem exists_enclose
    {p : Plot} {arena : Arena} (hgains : s.arena.Gains arena [p]) (range : TokenRange) :
    ∃ (q : Plot) (kept : Arena),
      enclose { s with arena } range p.root = .ok (q.root, kept) ∧
        q.tree = s.config.finish (.node .expression range [p.tree]) ∧ s.arena.Gains kept [q] := by
  obtain ⟨above, hpush, habove⟩ := hgains.exists_add .expression range
  rw [List.map_singleton, Arena.pushBackAll_singleton] at hpush
  rw [enclose_of_pushBack hpush]
  by_cases hsimplify : s.config.simplify = true
  · obtain ⟨kept, hkept, hgainsKept⟩ := habove.exists_simplify
    refine ⟨_, kept, ?_, ?_, hgainsKept⟩
    · rw [Plot.root_node] at hkept
      rw [if_pos hsimplify, hkept, Plot.root_simplified]
      rfl
    · rw [Plot.tree_simplified, Plot.tree, Config.finish, if_pos hsimplify, List.map_singleton]
  · refine ⟨_, above, ?_, ?_, habove⟩
    · rw [if_neg hsimplify]
      rfl
    · rw [Plot.tree, Config.finish, if_neg hsimplify, List.map_singleton]

/-! ## Contents -/

/-- The tree that is read in a range, without the node of the statement. -/
def content (s : Session) (range : TokenRange) : Except ParseError Tree :=
  if s.normalizes range then
    match groupTokens s.tokens range s.config.limit with
    | .error e => .error e
    | .ok g =>
        match (Reading.grouped g s.config.limit).whole ⟨0, g.entries.size⟩ .grouping with
        | .error failure => .error failure.error
        | .ok t => .ok (t.mapRanges g.sourceRange)
  else
    match s.reading.whole range .expression with
    | .error failure => .error failure.error
    | .ok t => .ok t

theorem direct_delivers
    {t : Tree} (h : s.reading.whole range .expression = .ok t) : s.Delivers (s.direct range) t := by
  obtain ⟨p, arena, hbuild, htree, hgains⟩ := Arena.builds t s.arena
  refine ⟨p, arena, ?_, htree, hgains⟩
  simp only [direct, h, hbuild, commit]

theorem normalized_delivers
    {g : Grouped} {t : Tree} (hgroup : groupTokens s.tokens range s.config.limit = .ok g)
    (h : (Reading.grouped g s.config.limit).whole ⟨0, g.entries.size⟩ .grouping = .ok t) :
    s.Delivers (s.normalized range) (t.mapRanges g.sourceRange) := by
  obtain ⟨q, inner, hbuild, rfl, hinner⟩ := Arena.builds t .empty
  have hq := List.mem_singleton_self q
  obtain ⟨p, arena, hcopy, htree, hgains⟩ := Arena.exists_copyTree s.arena
    ((hinner.bears q hq).mapRanges g.sourceRange)
    (by simpa using Plot.nodup_ids_of_mem hinner.nodup hq)
  rw [Plot.root_mapRanges] at hcopy
  refine ⟨p, arena, ?_, by rw [htree, Plot.tree_mapRanges], hgains⟩
  have hadopt : s.adopt g q.tree = .ok (p.root, arena) := by
    simp only [adopt, hbuild]
    exact hcopy
  simp only [normalized, hgroup, h, hadopt, commit]

theorem expression_of_delivers
    {t : Tree}
    (h : s.Delivers (if s.normalizes range then s.normalized range else s.direct range) t) :
    s.Delivers (s.expression range) (s.config.finish (.node .expression range [t])) := by
  obtain ⟨p, arena, hanswer, rfl, hgains⟩ := h
  obtain ⟨q, kept, henclose, htree, hkept⟩ := exists_enclose hgains range
  refine ⟨q, kept, ?_, htree, hkept⟩
  simp only [expression, hanswer, henclose, commit]

/-- What is read in a range is delivered. -/
theorem read_delivers
    {t : Tree} (h : s.content range = .ok t) :
    s.Delivers (if s.normalizes range then s.normalized range else s.direct range) t := by
  unfold content at h
  split
  · rename_i hnormalizes
    rw [if_pos hnormalizes] at h
    split at h
    · cases h
    · rename_i g hgroup
      split at h
      · cases h
      · rename_i t hwhole
        cases h
        exact normalized_delivers hgroup hwhole
  · rename_i hnormalizes
    rw [if_neg hnormalizes] at h
    split at h
    · cases h
    · rename_i t hwhole
      cases h
      exact direct_delivers hwhole

/-- What is read in a range is delivered, below the node of the statement. -/
theorem expression_delivers
    {t : Tree} (h : s.content range = .ok t) :
    s.Delivers (s.expression range) (s.config.finish (.node .expression range [t])) :=
  expression_of_delivers (read_delivers h)

/-- If nothing is read in a range, that is for the error. -/
theorem read_error
    {e : ParseError} (h : s.content range = .error e) :
    (if s.normalizes range then s.normalized range else s.direct range).1 = .error e := by
  unfold content at h
  by_cases hnormalizes : s.normalizes range = true
  · simp only [hnormalizes, if_true] at h ⊢
    split at h
    · rename_i hgroup
      cases h
      simp only [normalized, hgroup]
    · rename_i g hgroup
      split at h
      · rename_i failure hwhole
        cases h
        simp only [normalized, hgroup, hwhole]
      · cases h
  · simp only [hnormalizes, Bool.false_eq_true, if_false] at h ⊢
    split at h
    · rename_i failure hwhole
      cases h
      simp only [direct, hwhole, refuse]
    · cases h

/-- If nothing is read in a range, the answer is the error. -/
theorem expression_error
    {e : ParseError} (h : s.content range = .error e) : (s.expression range).1 = .error e := by
  have hread := read_error h
  unfold expression
  split
  · rename_i hanswer
    rwa [hanswer] at hread
  · rename_i hanswer
    rw [hanswer] at hread
    cases hread

/-- An expression is delivered exactly if something is read. -/
theorem isOk_expression
    (s : Session) (range : TokenRange) :
    (s.expression range).1.isOk = (s.content range).isOk := by
  cases h : s.content range with
  | ok t => rw [(expression_delivers h).isOk]; rfl
  | error e => rw [expression_error h]; rfl

theorem exists_content_of_expression
    {root : NodeId} {after : Session} (h : s.expression range = (.ok root, after)) :
    ∃ t, s.content range = .ok t := by
  cases hcontent : s.content range with
  | ok t => exact ⟨t, rfl⟩
  | error e =>
      have herror := expression_error hcontent
      rw [h] at herror
      cases herror

theorem content_of_expression_error
    {e : ParseError} {after : Session} (h : s.expression range = (.error e, after)) :
    s.content range = .error e := by
  cases hcontent : s.content range with
  | ok t =>
      have hok := (expression_delivers hcontent).isOk
      rw [h] at hok
      cases hok
  | error found =>
      have herror := expression_error hcontent
      rw [h] at herror
      cases herror
      rfl

/-- The longest expression at the start of a range is delivered as it was read. -/
theorem longest_delivers
    {t : Tree} {next : Nat} (h : s.reading.longest range = .ok (t, next)) :
    ∃ (p : Plot) (arena : Arena), s.longest range = (.ok (p.root, next), { s with arena }) ∧
      s.Delivers (.ok p.root, { s with arena }) t := by
  obtain ⟨p, arena, hbuild, htree, hgains⟩ := Arena.builds t s.arena
  refine ⟨p, arena, ?_, p, arena, rfl, htree, hgains⟩
  simp only [longest, h, hbuild, commit, Except.map]

end Session

end ExprFront
