import ExprFront.Proofs.Phrase.WellFormed
import ExprFront.Proofs.Scope.Bounds
import ExprFront.Proofs.Session.Phrased

/-!
# Every delivered tree passes the check

Whatever the configuration, an expression that is accepted has a well-formed
tree in the arena, and so has the longest expression at the start of a range.
For a program this is an invariant of reading its statements one by one: the
statements come in order, so each tree is put after those that are there.
-/

namespace ExprFront

/-! ## Statements in order -/

namespace Statement

/-- The statements come one after the other, from an index on and before the end. -/
def InOrder (stop : Nat) : (index : Nat) → List Statement → Prop
  | _, [] => True
  | index, statement :: more =>
      index ≤ statement.range.start ∧ statement.range.start ≤ statement.range.stop ∧
        statement.range.stop ≤ stop ∧ InOrder stop statement.range.stop more

theorem InOrder.mono
    {stop least index : Nat} {statements : List Statement} (h : InOrder stop index statements)
    (hle : least ≤ index) : InOrder stop least statements := by
  cases statements with
  | nil => trivial
  | cons statement more => exact ⟨Nat.le_trans hle h.1, h.2⟩

/-- A range is split into statements in order. -/
theorem inOrder_of_splitFrom
    {tokens : Array Token} {stop steps index : Nat} {statements : List Statement}
    (h : splitFrom tokens stop steps index = .ok statements) : InOrder stop index statements := by
  induction steps generalizing index statements with
  | zero =>
      cases h
      trivial
  | succ steps ih =>
      rw [splitFrom] at h
      split at h
      · cases h
        trivial
      · split at h
        · cases h
          trivial
        · split at h
          · exact (ih h).mono (Nat.le_succ index)
          · split at h
            · cases h
            · rename_i statement hresolve
              obtain ⟨hstart, hlength, hstop, -, hrange⟩ := within_of_resolve hresolve
              split at h
              · rename_i later hlater
                cases h
                simp only [InOrder, hrange]
                dsimp only at hstop
                exact ⟨hstart, by omega, by omega, (ih hlater).mono (Nat.sub_le _ _)⟩
              · cases h

/-- Whether the statement is a value, which is read as an expression. -/
def isValue (statement : Statement) : Bool :=
  match statement.kind with
  | .value => true
  | .directive _ => false

end Statement

namespace Session

variable {s : Session} {range : TokenRange}

/-! ## Expressions -/

/-- The tree of an accepted expression is well-formed and keeps to its range. -/
theorem wellFormed_finish
    {t : Tree} (h : s.content range = .ok t) :
    (s.config.finish (.node .expression range [t])).WellFormed ∧
      range.contains (s.config.finish (.node .expression range [t])).range = true := by
  obtain ⟨p, hp, rfl⟩ := exists_accepted_of_content h
  obtain ⟨hbare, hinside⟩ := (Phrase.wellFormed_tree hp.covers.spells hp.single).bare
  rw [Phrase.range_tree, hp.covers.stop_eq] at hinside
  have hnode : (Tree.node .expression range [(p.tree range.start).bare]).WellFormed :=
    Tree.wellFormed_singleton rfl hinside hbare
  unfold Config.finish
  split
  · exact hnode.simplified_and_contains
  · exact ⟨hnode, TokenRange.contains_self range⟩

/-- An accepted expression is delivered with a well-formed tree inside its range. -/
theorem exists_delivers_of_expression
    {root : NodeId} {after : Session} (h : s.expression range = (.ok root, after)) :
    ∃ t, s.Delivers (s.expression range) t ∧ t.WellFormed ∧ range.contains t.range = true := by
  obtain ⟨t, hcontent⟩ := exists_content_of_expression h
  exact ⟨_, expression_delivers hcontent, wellFormed_finish hcontent⟩

theorem check_expression
    {root : NodeId} {after : Session} (h : s.expression range = (.ok root, after)) :
    after.arena.check root = .ok () := by
  obtain ⟨t, hdelivers, hwell, -⟩ := exists_delivers_of_expression h
  exact hdelivers.check_eq_ok h hwell

/-- The longest expression that is delivered comes from a phrase that nothing continues, and its
tree is new in the arena. -/
theorem exists_found_and_gains_of_longest
    {root : NodeId} {next : Nat} {after : Session}
    (h : s.longest range = (.ok (root, next), after)) :
    ∃ (p : Phrase) (q : Plot), s.reading.Found p range.start range.stop 0 q.tree next ∧
      Halts s.tokens range.stop 0 next ∧ q.root = root ∧ s.arena.Gains after.arena [q] := by
  cases hread : s.reading.longest range with
  | error failure =>
      simp only [longest, hread, refuse] at h
      cases h
  | ok result =>
      obtain ⟨t, last⟩ := result
      obtain ⟨p, hfound, hhalts⟩ := Reading.exists_found_of_longest (fun _ => rfl) hread
      obtain ⟨found, arena, hanswer, q, kept, heq, rfl, hgains⟩ := longest_delivers hread
      rw [hanswer] at h
      cases h
      rw [Prod.mk.injEq, Except.ok.injEq, Session.mk.injEq] at heq
      obtain ⟨hroot, -, -, rfl⟩ := heq
      exact ⟨p, q, hfound, hhalts, hroot.symm, hgains⟩

theorem check_longest
    {root : NodeId} {next : Nat} {after : Session}
    (h : s.longest range = (.ok (root, next), after)) : after.arena.check root = .ok () := by
  obtain ⟨p, q, hfound, -, rfl, hgains⟩ := exists_found_and_gains_of_longest h
  have hq := List.mem_singleton_self q
  apply (hgains.bears q hq).check_eq_ok (Plot.nodup_ids_of_mem hgains.nodup hq)
  rw [hfound.tree_eq]
  exact Phrase.wellFormed_tree hfound.spells hfound.single

/-! ## Programs -/

/-- The node of a program and the trees of the statements up to an index are in the arena. -/
structure Drafts (s : Session) (id : NodeId) (range : TokenRange) (index : Nat)
    (ps : List Plot) : Prop where
  bears : s.arena.Bears none (.node id .program range ps)
  nodup : (Plot.node id .program range ps).ids.Nodup
  arranged : Tree.Arranged range range.start (ps.map Plot.tree)
  le_index : range.start ≤ index
  stop_le : ∀ p ∈ ps, p.tree.range.stop ≤ index

/-- The draft of a program has a well-formed tree. -/
theorem Drafts.check_eq_ok
    {id : NodeId} {index : Nat} {ps : List Plot} (h : s.Drafts id range index ps) :
    s.arena.check id = .ok () := by
  apply h.bears.check_eq_ok h.nodup
  rw [Plot.tree]
  exact ⟨rfl, by simp [NodeKind.isLeaf, NodeKind.arity], h.arranged⟩

theorem Drafts.nodup_of_mem
    {id : NodeId} {index : Nat} {ps : List Plot} {p : Plot} (h : s.Drafts id range index ps)
    (hp : p ∈ ps) : p.ids.Nodup := by
  have hall := h.nodup
  rw [Plot.ids] at hall
  exact Plot.nodup_ids_of_mem (List.nodup_cons.mp hall).2 hp

/-- The trees of a draft are in the arena, in order below the node of the program. -/
theorem Drafts.children_eq
    {id : NodeId} {index : Nat} {ps : List Plot} (h : s.Drafts id range index ps) :
    s.arena.node? id = some ⟨.program, range, ps.map Plot.root, none⟩ ∧
      ∀ p ∈ ps, s.arena.tree? p.root = some p.tree := by
  obtain ⟨hroot, hps⟩ := Arena.bears_node_iff.mp h.bears
  exact ⟨hroot, fun p hp => (hps p hp).tree?_eq (h.nodup_of_mem hp)⟩

/-- The tree of the next statement is put below the node of the program. -/
theorem Drafts.step_content
    {id : NodeId} {index : Nat} {ps : List Plot} {part : TokenRange} {root : NodeId}
    {after : Session} (h : s.Drafts id range index ps) (hindex : index ≤ part.start)
    (hle : part.start ≤ part.stop) (hstop : part.stop ≤ range.stop)
    (hanswer : s.expression part = (.ok root, after)) :
    ∃ arena q t, after.arena.pushBack id root = .ok arena ∧
      ({ after with arena } : Session) = { s with arena } ∧
      ({ after with arena } : Session).Drafts id range part.stop (ps ++ [q]) ∧
      s.content part = .ok t ∧ q.tree = s.config.finish (.node .expression part [t]) := by
  obtain ⟨t, hcontent⟩ := exists_content_of_expression hanswer
  obtain ⟨hwell, hinside⟩ := wellFormed_finish hcontent
  obtain ⟨q, kept, hdelivered, htree, hgains⟩ := expression_delivers hcontent
  rw [← htree] at hwell hinside
  rw [hanswer] at hdelivered
  cases hdelivered
  have hends := (TokenRange.contains_iff _ _).mp hinside
  have hstart := h.le_index
  obtain ⟨arena, hpush, hbelow⟩ := hgains.exists_pushBack (Arena.bears_node_iff.mp h.bears).1
  obtain ⟨hbears, hnodup⟩ := h.bears.append h.nodup hbelow
  refine ⟨arena, q, t, hpush, rfl, ⟨hbears, hnodup, ?_, by omega, ?_⟩, hcontent, htree⟩
  · rw [List.map_append]
    refine Tree.arranged_append h.arranged ?_ hwell (by omega) ?_
    · rw [TokenRange.contains_iff]
      omega
    · intro u hu
      obtain ⟨p, hp, rfl⟩ := List.mem_map.mp hu
      have := h.stop_le p hp
      omega
  · intro p hp
    rcases List.mem_append.mp hp with hp | hp
    · have := h.stop_le p hp
      omega
    · rw [List.mem_singleton.mp hp]
      exact hends.2

theorem Drafts.step
    {id : NodeId} {index : Nat} {ps : List Plot} {part : TokenRange} {root : NodeId}
    {after : Session} (h : s.Drafts id range index ps) (hindex : index ≤ part.start)
    (hle : part.start ≤ part.stop) (hstop : part.stop ≤ range.stop)
    (hanswer : s.expression part = (.ok root, after)) :
    ∃ arena q, after.arena.pushBack id root = .ok arena ∧
      ({ after with arena } : Session).Drafts id range part.stop (ps ++ [q]) := by
  obtain ⟨arena, q, t, hpush, -, hdrafts, -⟩ := h.step_content hindex hle hstop hanswer
  exact ⟨arena, q, hpush, hdrafts⟩

/-- Reading the statements of a program one after the other keeps its draft, which gains the tree
of each value statement. -/
theorem Drafts.run_contents
    {id : NodeId} {index : Nat} {ps : List Plot} {statements : List Statement} {root : NodeId}
    {after : Session} (h : s.Drafts id range index ps)
    (horder : Statement.InOrder range.stop index statements)
    (hanswer : programStatements id statements s = (.ok root, after)) :
    root = id ∧ ∃ last qs, after.Drafts id range last (ps ++ qs) ∧
      List.Forall₂ (fun statement q => ∃ t, s.content statement.range = .ok t ∧
        q.tree = s.config.finish (.node .expression statement.range [t]))
        (statements.filter Statement.isValue) qs := by
  induction statements generalizing s index ps with
  | nil =>
      cases hanswer
      exact ⟨rfl, index, [], by rwa [List.append_nil], .nil⟩
  | cons statement more ih =>
      obtain ⟨hindex, hle, hstop, hmore⟩ := horder
      rw [programStatements] at hanswer
      split at hanswer
      · rename_i d hkind
        have hdirective : statement.isValue = false := by rw [Statement.isValue, hkind]
        rw [List.filter_cons_of_neg (by simp [hdirective])]
        exact ih h (hmore.mono (Nat.le_trans hindex hle)) hanswer
      · rename_i hkind
        have hvalue : statement.isValue = true := by rw [Statement.isValue, hkind]
        rw [List.filter_cons_of_pos hvalue]
        split at hanswer
        · cases hanswer
        · rename_i child s₁ hexpression
          obtain ⟨arena, q, t, hpush, hsame, hdrafts, hcontent, htree⟩ :=
            h.step_content hindex hle hstop hexpression
          rw [hpush] at hanswer
          dsimp only at hanswer
          rw [hsame] at hanswer hdrafts
          obtain ⟨rfl, last, qs, hlast, hqs⟩ := ih hdrafts hmore hanswer
          refine ⟨rfl, last, q :: qs, ?_, .cons ⟨t, hcontent, htree⟩ hqs⟩
          rwa [List.append_assoc] at hlast

theorem Drafts.run
    {id : NodeId} {index : Nat} {ps : List Plot} {statements : List Statement} {root : NodeId}
    {after : Session} (h : s.Drafts id range index ps)
    (horder : Statement.InOrder range.stop index statements)
    (hanswer : programStatements id statements s = (.ok root, after)) :
    root = id ∧ ∃ last qs, after.Drafts id range last qs := by
  obtain ⟨hroot, last, qs, hdrafts, -⟩ := h.run_contents horder hanswer
  exact ⟨hroot, last, ps ++ qs, hdrafts⟩

/-- The draft of a program starts without statements. -/
theorem drafts_nil
    (s : Session) (range : TokenRange) :
    ({ s with arena := (s.arena.add .program range).2 } : Session).Drafts s.arena.size range
      range.start [] :=
  ⟨Arena.bears_node_iff.mpr ⟨by simp [Arena.node?_add_snd], by simp⟩, by simp [Plot.ids],
    trivial, Nat.le_refl _, by simp⟩

theorem check_program
    {statements : List Statement} {root : NodeId} {after : Session}
    (hsplit : Statement.split s.tokens range = .ok statements)
    (h : s.program range statements = (.ok root, after)) : after.arena.check root = .ok () := by
  obtain ⟨rfl, last, qs, hlast⟩ :=
    (s.drafts_nil range).run (Statement.inOrder_of_splitFrom hsplit) h
  exact hlast.check_eq_ok

/-- Whatever a session delivers, an expression, the longest expression at the start of a range or
a program, passes the check. -/
theorem check_eq_ok_of_read
    (s : Session) (range : TokenRange) :
    (∀ (root : NodeId) (after : Session), s.expression range = (.ok root, after) →
      after.arena.check root = .ok ()) ∧
    (∀ (root : NodeId) (next : Nat) (after : Session),
      s.longest range = (.ok (root, next), after) → after.arena.check root = .ok ()) ∧
    ∀ (statements : List Statement) (root : NodeId) (after : Session),
      Statement.split s.tokens range = .ok statements →
      s.program range statements = (.ok root, after) → after.arena.check root = .ok () :=
  ⟨fun _ _ => check_expression, fun _ _ _ => check_longest, fun _ _ _ => check_program⟩

/-- The tokens of `-f.g(x) * y` are delivered as an expression, and with a semicolon as a
program. -/
theorem check_eq_ok_of_read_sample :
    (∃ root after, (start sampleTokens .standard).expression ⟨0, 9⟩ = (.ok root, after) ∧
      after.arena.check root = .ok ()) ∧
    (∃ found after, (start sampleTokens .standard).longest ⟨0, 9⟩ = (.ok found, after) ∧
      after.arena.check found.1 = .ok ()) ∧
    ∃ root after, (start (sampleTokens.push ⟨.punctuation .semicolon, ";", ⟨11, 12⟩, 1, 12, 1⟩)
        .standard).program ⟨0, 10⟩ [⟨.value, ⟨0, 9⟩, ⟨0, 10⟩⟩] = (.ok root, after) ∧
      after.arena.check root = .ok () := by
  obtain ⟨root, after, hexpression⟩ :=
    exists_eq_of_isOk (show ((start sampleTokens .standard).expression ⟨0, 9⟩).1.isOk = true by
      decide +kernel)
  obtain ⟨found, after', hlongest⟩ :=
    exists_eq_of_isOk (show ((start sampleTokens .standard).longest ⟨0, 9⟩).1.isOk = true by
      decide +kernel)
  obtain ⟨root', after'', hprogram⟩ :=
    exists_eq_of_isOk (show ((start (sampleTokens.push
        ⟨.punctuation .semicolon, ";", ⟨11, 12⟩, 1, 12, 1⟩) .standard).program ⟨0, 10⟩
        [⟨.value, ⟨0, 9⟩, ⟨0, 10⟩⟩]).1.isOk = true by decide +kernel)
  exact ⟨⟨root, after, hexpression, (check_eq_ok_of_read _ _).1 root after hexpression⟩,
    ⟨found, after', hlongest, (check_eq_ok_of_read _ _).2.1 found.1 found.2 after' hlongest⟩,
    ⟨root', after'', hprogram,
      (check_eq_ok_of_read _ _).2.2 _ root' after'' (by decide +kernel) hprogram⟩⟩

end Session

end ExprFront
