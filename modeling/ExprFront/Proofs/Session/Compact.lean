import ExprFront.Proofs.Arena.Counted
import ExprFront.Proofs.Session.Phrased

/-!
# Arenas without leftovers

When an expression is accepted, every node that was added on the way has its
place in the tree: reading as it was written builds the tree alone, and of what
is built apart for the grouped form only the copy gets into the arena. If
wrappers are collapsed, the result is what collapsing makes of the arena with
wrappers, so the nodes that are no longer in the tree are the only children of
the wrappers.
-/

namespace ExprFront

namespace Session

variable {s : Session} {range : TokenRange} {root inner : NodeId} {after : Session} {t : Tree}

/-- The session that collapses nothing. -/
def uncollapsed (s : Session) : Session :=
  { s with config := { s.config with simplify := false } }

/-! ## Reading -/

/-- Reading as it was written builds the tree, whether wrappers are collapsed later or not. -/
theorem direct_uncollapsed
    {arena : Arena} (hwhole : s.reading.whole range .expression = .ok t)
    (hread : s.direct range = (.ok inner, { s with arena })) :
    s.uncollapsed.direct range = (.ok inner, { s.uncollapsed with arena }) ∧
      arena.size = s.arena.size + t.size := by
  have hwhole' : s.uncollapsed.reading.whole range .expression = .ok t := hwhole
  obtain ⟨p, built, hbuild, -, -⟩ := Arena.builds t s.arena
  have hbuild' : s.uncollapsed.arena.build t = .ok (p.root, built) := hbuild
  simp only [direct, hwhole, hbuild, commit, Prod.mk.injEq, Except.ok.injEq, Session.mk.injEq,
    true_and] at hread
  obtain ⟨rfl, rfl⟩ := hread
  simp only [direct, hwhole', hbuild', commit]
  exact ⟨trivial, Arena.size_build hbuild⟩

/-- Of a tree that is built apart only the copy is added. -/
theorem size_adopt
    {g : Grouped} {arena : Arena} (h : s.adopt g t = .ok (inner, arena)) :
    arena.size = s.arena.size + t.size := by
  obtain ⟨q, built, hbuild, rfl, hbuilt⟩ := Arena.builds t .empty
  have hq := (hbuilt.bears q (List.mem_singleton_self q)).mapRanges g.sourceRange
  simp only [adopt, hbuild, bind, Except.bind] at h
  rw [← Plot.root_mapRanges g.sourceRange] at h
  rw [Arena.size_copyTree hq h, Plot.tree_mapRanges, Tree.size_mapRanges]

/-- By way of the grouped form a copy of the tree is added, whether wrappers are collapsed later or
not. -/
theorem normalized_uncollapsed
    {arena : Arena} {g : Grouped} (hgroup : groupTokens s.tokens range s.config.limit = .ok g)
    (hwhole : (Reading.grouped g s.config.limit).whole ⟨0, g.entries.size⟩ .grouping = .ok t)
    (hread : s.normalized range = (.ok inner, { s with arena })) :
    s.uncollapsed.normalized range = (.ok inner, { s.uncollapsed with arena }) ∧
      arena.size = s.arena.size + t.size := by
  have hinput : s.uncollapsed.tokens = s.tokens ∧ s.uncollapsed.config.limit = s.config.limit :=
    ⟨rfl, rfl⟩
  have hadopt' : s.uncollapsed.adopt g t = s.adopt g t := rfl
  cases hadopt : s.adopt g t with
  | error f =>
      simp only [normalized, hgroup, hwhole, hadopt, commit] at hread
      cases hread
  | ok found =>
      simp only [normalized, hgroup, hwhole, hadopt, commit, Prod.mk.injEq, Except.ok.injEq,
        Session.mk.injEq, true_and] at hread
      obtain ⟨rfl, rfl⟩ := hread
      simp only [normalized, hinput, hgroup, hwhole, hadopt', hadopt, commit]
      exact ⟨trivial, size_adopt hadopt⟩

/-- What is read takes as many nodes as it has, whether wrappers are collapsed later or not. -/
theorem read_uncollapsed
    {arena : Arena} (hcontent : s.content range = .ok t)
    (hread : (if s.normalizes range then s.normalized range else s.direct range) =
      (.ok inner, { s with arena })) :
    (if s.uncollapsed.normalizes range then s.uncollapsed.normalized range
      else s.uncollapsed.direct range) = (.ok inner, { s.uncollapsed with arena }) ∧
      arena.size = s.arena.size + t.size := by
  have hroute : s.uncollapsed.normalizes range = s.normalizes range := rfl
  rw [hroute]
  unfold content at hcontent
  split at hcontent
  · rename_i hnormalizes
    rw [if_pos hnormalizes] at hread ⊢
    split at hcontent
    · cases hcontent
    · rename_i g hgroup
      split at hcontent
      · cases hcontent
      · rename_i u hwhole
        cases hcontent
        rw [Tree.size_mapRanges]
        exact normalized_uncollapsed hgroup hwhole hread
  · rename_i hnormalizes
    rw [if_neg hnormalizes] at hread ⊢
    split at hcontent
    · cases hcontent
    · rename_i u hwhole
      cases hcontent
      exact direct_uncollapsed hwhole hread

/-- An accepted expression is accepted without collapsing, too, in an arena that has all nodes of
its tree and no others. Collapsing starts from this arena. -/
theorem exists_uncollapsed
    (h : s.expression range = (.ok root, after)) :
    ∃ (q : Plot) (plain : Arena) (t : Tree),
      s.uncollapsed.expression range = (.ok q.root, { s.uncollapsed with arena := plain }) ∧
        q.root = root ∧ s.content range = .ok t ∧ q.tree = .node .expression range [t] ∧
        s.arena.Gains plain [q] ∧ plain.size = s.arena.size + q.tree.size ∧
        (if s.config.simplify then plain.simplify root else .ok plain) = .ok after.arena := by
  obtain ⟨t, hcontent⟩ := exists_content_of_expression h
  obtain ⟨p, arena, hread, htree, hgains⟩ := read_delivers hcontent
  obtain ⟨hread', hsize⟩ := read_uncollapsed hcontent hread
  obtain ⟨plain, hpush, hplain⟩ := hgains.exists_add .expression range
  rw [List.map_singleton, Arena.pushBackAll_singleton] at hpush
  have henclose' : enclose { s.uncollapsed with arena } range p.root = .ok (arena.size, plain) :=
    enclose_of_pushBack hpush
  have htop : (Plot.node arena.size .expression range [p]).tree = .node .expression range [t] := by
    rw [Plot.tree, List.map_singleton, htree]
  have hplainSize : plain.size = s.arena.size + (Tree.node .expression range [t]).size := by
    simp only [Arena.size_pushBack hpush, Arena.size_add_snd, hsize, Tree.size, Tree.sizeAll]
    omega
  have hanswer : arena.size = root ∧
      (if s.config.simplify then plain.simplify root else .ok plain) = .ok after.arena := by
    simp only [expression, hread, enclose_of_pushBack hpush] at h
    generalize hfinal : (if s.config.simplify then plain.simplify arena.size else .ok plain) =
      final at h
    cases final with
    | error f => cases h
    | ok kept =>
        cases h
        exact ⟨rfl, hfinal⟩
  refine ⟨.node arena.size .expression range [p], plain, t, ?_, hanswer.1, hcontent, htop, hplain,
    htop ▸ hplainSize, hanswer.2⟩
  simp only [expression, hread', henclose', commit, Plot.root_node]

/-- An accepted expression takes as many nodes as its tree has with the node of the statement and
without collapsing. -/
theorem size_expression
    (h : s.expression range = (.ok root, after)) :
    ∃ t, s.content range = .ok t ∧
      after.arena.size = s.arena.size + (Tree.node .expression range [t]).size := by
  obtain ⟨q, plain, t, -, -, hcontent, htree, -, hsize, hafter⟩ := exists_uncollapsed h
  refine ⟨t, hcontent, ?_⟩
  rw [htree] at hsize
  split at hafter
  · rw [Arena.size_simplify hafter, hsize]
  · rw [← Except.ok.inj hafter, hsize]

/-! ## Fresh sessions -/

/-- Contents do not depend on when an expression is grouped, wherever there are two. -/
theorem content_eq_of_same_limit
    {u : Session} {v : Tree} (hs : s.content range = .ok t) (hu : u.content range = .ok v)
    (htokens : u.tokens = s.tokens) (hlimit : u.config.limit = s.config.limit) : v = t := by
  obtain ⟨p, hp, rfl⟩ := exists_accepted_of_content hs
  obtain ⟨q, hq, rfl⟩ := exists_accepted_of_content hu
  rw [htokens, hlimit] at hq
  have hread := Reading.whole_of_accepted hp .expression
  rw [Reading.whole_of_accepted hq .expression] at hread
  exact Except.ok.inj hread

/-- In a fresh session an accepted expression leaves as many nodes as the tree has that is
delivered without collapsing, by whichever route it is read. Without collapsing all of them are in
the tree. With collapsing those outside the tree stand alone, and they are the only children of the
wrappers that are collapsed, one for each. -/
theorem expression_leaves_no_other_nodes
    (tokens : Array Token) (config : Config) (range : TokenRange) (root : NodeId)
    (after : Session) (h : (start tokens config).expression range = (.ok root, after)) :
    ∃ (plain : Session) (t : Tree),
      (start tokens { config with simplify := false }).expression range = (.ok root, plain) ∧
        plain.arena.tree? root = some t ∧ after.arena.size = t.size ∧
        (∀ (n : Normalization) (other : NodeId) (last : Session),
          (start tokens { config with normalization := n }).expression range = (.ok other, last) →
          last.arena.size = after.arena.size) ∧
        (config.simplify = false → ∀ id < after.arena.size, after.arena.Reaches root id) ∧
        (config.simplify = true →
          (∀ id < after.arena.size, ¬ after.arena.Reaches root id →
            after.arena.Alone id ∧ ∃! wrapper, plain.arena.Wraps wrapper id) ∧
          ∀ wrapper id, plain.arena.Wraps wrapper id →
            id < after.arena.size ∧ ¬ after.arena.Reaches root id) := by
  obtain ⟨q, plain, t, hanswer, rfl, hcontent, htree, hgains, hplainSize, hafter⟩ :=
    exists_uncollapsed h
  obtain ⟨u, hu, hsize⟩ := size_expression h
  obtain rfl : u = t := content_eq_of_same_limit hcontent hu rfl rfl
  have hempty : (start tokens config).arena.size = 0 := rfl
  rw [hempty, Nat.zero_add] at hplainSize hsize
  rw [← htree] at hsize
  have hmem := List.mem_singleton_self q
  have hq := hgains.bears q hmem
  have hnodup := Plot.nodup_ids_of_mem hgains.nodup hmem
  have hall : ∀ id < plain.size, id ∈ q.ids := fun id hid =>
    hq.mem_ids_of_size_le hnodup (by rw [q.length_ids, hplainSize]) hid
  refine ⟨{ (start tokens config).uncollapsed with arena := plain }, q.tree, hanswer,
    hq.tree?_eq hnodup, hsize, ?_, ?_, ?_⟩
  · intro n other last hlast
    obtain ⟨v, hv, hother⟩ := size_expression hlast
    obtain rfl : v = u := content_eq_of_same_limit hcontent hv rfl rfl
    rw [hother, hsize, htree]
    exact Nat.zero_add _
  · intro hsimplify id hid
    have hsame : plain = after.arena := by
      have hoff : (start tokens config).config.simplify = false := hsimplify
      rw [hoff, if_neg Bool.false_ne_true] at hafter
      exact Except.ok.inj hafter
    subst hsame
    exact hq.mem_ids_iff.mp (hall id hid)
  · intro hsimplify
    have hon : (start tokens config).config.simplify = true := hsimplify
    rw [if_pos hon] at hafter
    obtain ⟨kept, hkept, hbears, -, halone⟩ := hq.exists_simplify hnodup
    obtain rfl : kept = after.arena := Except.ok.inj (hkept.symm.trans hafter)
    have hreach : ∀ id, id ∈ q.simplified.ids ↔ after.arena.Reaches q.root id := by
      intro id
      rw [hbears.mem_ids_iff, q.root_simplified]
    have hin : ∀ {wrapper id}, plain.Wraps wrapper id →
        id ∈ q.ids ∧ plain.parent id = some wrapper := fun hwraps =>
      hq.of_mem_children (hall _ hwraps.lt_size) hwraps.mem_children
    constructor
    · intro id hid hnot
      have hinside : id ∈ q.ids := hall id (by rw [hplainSize, ← hsize]; exact hid)
      have hdropped : id ∉ q.simplified.ids := mt (hreach id).mp hnot
      obtain ⟨wrapper, -, hwraps⟩ := (hq.not_mem_simplified_iff hnodup hinside).mp hdropped
      refine ⟨halone id hinside hdropped, wrapper, hwraps, fun other hother => ?_⟩
      exact Option.some.inj ((hin hother).2.symm.trans (hin hwraps).2)
    · intro wrapper id hwraps
      have hinside := (hin hwraps).1
      have hdropped := (hq.not_mem_simplified_iff hnodup hinside).mpr
        ⟨wrapper, hall wrapper hwraps.lt_size, hwraps⟩
      refine ⟨?_, mt (hreach id).mpr hdropped⟩
      rw [hsize, ← hplainSize]
      exact hq.lt_size id hinside

/-- The tokens of `-(x)`. -/
def sampleNegated : Array Token :=
  #[⟨.operator .minus, "-", ⟨0, 1⟩, 1, 1, 1⟩, ⟨.punctuation .lparen, "(", ⟨1, 2⟩, 1, 2, 1⟩,
    ⟨.identifier, "x", ⟨2, 3⟩, 1, 3, 1⟩, ⟨.punctuation .rparen, ")", ⟨3, 4⟩, 1, 4, 1⟩]

/-- The nodes of the statement and of the parentheses take the places of their children, which are
left over. -/
theorem expression_leaves_no_other_nodes_sample :
    ∃ (root : NodeId) (after plain : Session) (t : Tree),
      (start sampleNegated .standard).expression ⟨0, 4⟩ = (.ok root, after) ∧
        (start sampleNegated { Config.standard with simplify := false }).expression ⟨0, 4⟩ =
          (.ok root, plain) ∧
        plain.arena.tree? root = some t ∧ after.arena.size = t.size ∧
        ∀ wrapper id, plain.arena.Wraps wrapper id →
          id < after.arena.size ∧ ¬ after.arena.Reaches root id := by
  obtain ⟨root, after, hanswer⟩ :=
    exists_eq_of_isOk (show ((start sampleNegated .standard).expression ⟨0, 4⟩).1.isOk = true by
      decide +kernel)
  obtain ⟨plain, t, hplain, htree, hsize, -, -, hcollapsed⟩ :=
    expression_leaves_no_other_nodes sampleNegated .standard ⟨0, 4⟩ root after hanswer
  exact ⟨root, after, plain, t, hanswer, hplain, htree, hsize, (hcollapsed rfl).2⟩

end Session

end ExprFront
