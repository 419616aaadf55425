import ExprFront.Proofs.Arena.Relocated
import ExprFront.Proofs.Session.Delivered

/-!
# Sessions behind other nodes

What a session does with its arena, it does behind the nodes of another arena as
well: the answers are the same but for the numbers, which are raised, and the
nodes in front stay as they are. This holds of failed calls too, which put the
trees that they had finished behind the nodes that are there.
-/

namespace ExprFront

namespace Session

variable {s : Session} {range : TokenRange}

/-! ## Behind other nodes -/

/-- The session with the nodes of an arena in front of its own. -/
def behind (s : Session) (a : Arena) : Session := { s with arena := a.append s.arena }

theorem abandon_behind
    (s : Session) (a : Arena) (trees : List Tree) :
    (s.behind a).abandon trees = (s.abandon trees).behind a := by
  obtain ⟨ps, arena, hall, -, -⟩ :=
    @Arena.exists_buildAll trees (fun t _ => Arena.builds t) s.arena
  simp only [abandon, behind, hall, Arena.buildAll_append a hall]

theorem direct_behind
    (s : Session) (a : Arena) (range : TokenRange) :
    (s.behind a).direct range =
      ((s.direct range).1.map (a.size + ·), (s.direct range).2.behind a) := by
  cases hwhole : s.reading.whole range .expression with
  | error failure =>
      have hwhole' : (s.behind a).reading.whole range .expression = .error failure := hwhole
      simp only [direct, hwhole, hwhole', refuse, abandon_behind, Except.map]
  | ok t =>
      have hwhole' : (s.behind a).reading.whole range .expression = .ok t := hwhole
      obtain ⟨p, arena, hbuild, -, -⟩ := Arena.builds t s.arena
      have hbuild' : (s.behind a).arena.build t = .ok (a.size + p.root, a.append arena) :=
        Arena.build_append a hbuild
      simp only [direct, hwhole, hwhole', hbuild, hbuild', commit, Except.map]
      rfl

/-- A grouped expression is adopted behind other nodes. -/
theorem adopt_behind
    {g : Grouped} {t : Tree} {id : NodeId} {arena : Arena} (a : Arena)
    (h : s.adopt g t = .ok (id, arena)) :
    (s.behind a).adopt g t = .ok (a.size + id, a.append arena) := by
  obtain ⟨q, inner, hbuild, -, -⟩ := Arena.builds t .empty
  simp only [adopt, hbuild, bind, Except.bind] at h ⊢
  exact Arena.copyTree_append a h

theorem exists_adopt
    {g : Grouped} {t : Tree} (hgroup : groupTokens s.tokens range s.config.limit = .ok g)
    (h : (Reading.grouped g s.config.limit).whole ⟨0, g.entries.size⟩ .grouping = .ok t) :
    ∃ id arena, s.adopt g t = .ok (id, arena) := by
  obtain ⟨p, arena, hanswer, -, -⟩ := normalized_delivers hgroup h
  simp only [normalized, hgroup, h] at hanswer
  cases hadopt : s.adopt g t with
  | ok found => exact ⟨found.1, found.2, rfl⟩
  | error f =>
      rw [hadopt] at hanswer
      cases hanswer

theorem normalized_behind
    (s : Session) (a : Arena) (range : TokenRange) :
    (s.behind a).normalized range =
      ((s.normalized range).1.map (a.size + ·), (s.normalized range).2.behind a) := by
  have hinput : (s.behind a).tokens = s.tokens ∧ (s.behind a).config = s.config := ⟨rfl, rfl⟩
  cases hgroup : groupTokens s.tokens range s.config.limit with
  | error e => simp only [normalized, hinput, hgroup, Except.map]
  | ok g =>
      cases hwhole : (Reading.grouped g s.config.limit).whole ⟨0, g.entries.size⟩ .grouping with
      | error failure => simp only [normalized, hinput, hgroup, hwhole, Except.map]
      | ok t =>
          obtain ⟨id, arena, hadopt⟩ := exists_adopt hgroup hwhole
          simp only [normalized, hinput, hgroup, hwhole, hadopt, adopt_behind a hadopt, commit,
            Except.map]
          rfl

/-- A statement node is put above a new root, behind other nodes. -/
theorem enclose_behind
    {p : Plot} {arena kept : Arena} {id : NodeId} (a : Arena)
    (hgains : s.arena.Gains arena [p])
    (h : enclose { s with arena } range p.root = .ok (id, kept)) :
    (enclose ({ s with arena }.behind a) range (a.size + p.root)) =
      .ok (a.size + id, a.append kept) := by
  obtain ⟨above, hpush, habove⟩ := hgains.exists_add .expression range
  rw [List.map_singleton, Arena.pushBackAll_singleton] at hpush
  have hpush' := Arena.pushBack_append a hpush
  have hp := List.mem_singleton_self (Plot.node arena.size .expression range [p])
  simp only [enclose, behind, Arena.add_append, Arena.add_fst, hpush, hpush', bind,
    Except.bind] at h ⊢
  by_cases hsimplify : s.config.simplify = true
  · rw [if_pos hsimplify] at h ⊢
    cases hcollapsed : above.simplify arena.size with
    | error f =>
        rw [hcollapsed] at h
        cases h
    | ok collapsed =>
        rw [hcollapsed] at h
        cases h
        have hraised := Arena.simplify_append a (habove.bears _ hp)
          (Plot.nodup_ids_of_mem habove.nodup hp) hcollapsed
        rw [Plot.root_node] at hraised
        rw [hraised]
        rfl
  · rw [if_neg hsimplify] at h ⊢
    cases h
    rfl

theorem exists_gains_of_read
    {inner : NodeId} {after : Session}
    (h : (if s.normalizes range then s.normalized range else s.direct range) =
      (.ok inner, after)) :
    ∃ (p : Plot) (arena : Arena), s.arena.Gains arena [p] ∧ inner = p.root ∧
      after = { s with arena } := by
  cases hcontent : s.content range with
  | error e =>
      have herror := read_error hcontent
      rw [h] at herror
      cases herror
  | ok t =>
      obtain ⟨p, arena, hanswer, -, hgains⟩ := read_delivers hcontent
      rw [h] at hanswer
      cases hanswer
      exact ⟨p, arena, hgains, rfl, rfl⟩

theorem expression_behind
    (s : Session) (a : Arena) (range : TokenRange) :
    (s.behind a).expression range =
      ((s.expression range).1.map (a.size + ·), (s.expression range).2.behind a) := by
  have hroute : (if (s.behind a).normalizes range then (s.behind a).normalized range
      else (s.behind a).direct range) =
      ((if s.normalizes range then s.normalized range else s.direct range).1.map (a.size + ·),
        (if s.normalizes range then s.normalized range else s.direct range).2.behind a) := by
    have hnormalizes : (s.behind a).normalizes range = s.normalizes range := rfl
    rw [hnormalizes]
    split
    · exact normalized_behind s a range
    · exact direct_behind s a range
  unfold expression
  rw [hroute]
  rcases hread : (if s.normalizes range then s.normalized range else s.direct range) with
    ⟨_ | inner, after⟩
  · rfl
  · obtain ⟨p, arena, hgains, rfl, rfl⟩ := exists_gains_of_read hread
    obtain ⟨q, kept, henclose, -, -⟩ := exists_enclose hgains range
    simp only [Except.map, henclose, enclose_behind a hgains henclose, commit]
    rfl

theorem longest_behind
    (s : Session) (a : Arena) (range : TokenRange) :
    (s.behind a).longest range =
      ((s.longest range).1.map (Prod.map (a.size + ·) id), (s.longest range).2.behind a) := by
  cases hlongest : s.reading.longest range with
  | error failure =>
      have hlongest' : (s.behind a).reading.longest range = .error failure := hlongest
      simp only [longest, hlongest, hlongest', refuse, abandon_behind, Except.map]
  | ok found =>
      have hlongest' : (s.behind a).reading.longest range = .ok found := hlongest
      obtain ⟨p, arena, hbuild, -, -⟩ := Arena.builds found.1 s.arena
      have hbuild' : (s.behind a).arena.build found.1 = .ok (a.size + p.root, a.append arena) :=
        Arena.build_append a hbuild
      simp only [longest, hlongest, hlongest', hbuild, hbuild', commit, Except.map]
      rfl

/-! ## Programs -/

/-- An expression of a program is put below its node, which stays in the arena. -/
theorem exists_pushBack_of_expression
    {program root : NodeId} {n : Node} {after : Session}
    (hprogram : s.arena.node? program = some n) (h : s.expression range = (.ok root, after)) :
    ∃ arena m, after.arena.pushBack program root = .ok arena ∧ arena.node? program = some m := by
  obtain ⟨t, hcontent⟩ := exists_content_of_expression h
  obtain ⟨p, arena, hanswer, -, hgains⟩ := expression_delivers hcontent
  rw [h] at hanswer
  cases hanswer
  obtain ⟨kept, hpush, hbelow⟩ := hgains.exists_pushBack hprogram
  exact ⟨kept, _, hpush, hbelow.node⟩

theorem programStatements_behind
    {program : NodeId} {n : Node} (a : Arena) (statements : List Statement)
    (hprogram : s.arena.node? program = some n) :
    programStatements (a.size + program) statements (s.behind a) =
      ((programStatements program statements s).1.map (a.size + ·),
        (programStatements program statements s).2.behind a) := by
  induction statements generalizing s n with
  | nil => rfl
  | cons statement more ih =>
      rw [programStatements, programStatements]
      cases statement.kind with
      | directive d => exact ih hprogram
      | value =>
          simp only [expression_behind]
          rcases hexpression : s.expression statement.range with ⟨_ | root, after⟩
          · rfl
          · obtain ⟨arena, m, hpush, hprogram'⟩ :=
              exists_pushBack_of_expression hprogram hexpression
            have hpush' : (after.behind a).arena.pushBack (a.size + program) (a.size + root) =
                .ok (a.append arena) := Arena.pushBack_append a hpush
            simp only [Except.map, hpush, hpush']
            exact @ih { after with arena } m hprogram'

theorem program_behind
    (s : Session) (a : Arena) (range : TokenRange) (statements : List Statement) :
    (s.behind a).program range statements =
      ((s.program range statements).1.map (a.size + ·),
        (s.program range statements).2.behind a) := by
  have hnode : ({ s with arena := (s.arena.add .program range).2 } : Session).arena.node?
      s.arena.size = some ⟨.program, range, [], none⟩ := by
    simp [Arena.node?_add_snd]
  have hrun := programStatements_behind a statements hnode
  simp only [program, behind, Arena.add_append, Arena.add_fst]
  exact hrun

end Session

end ExprFront
