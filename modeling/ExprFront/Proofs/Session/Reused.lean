import ExprFront.Proofs.Reading.Counted
import ExprFront.Proofs.Session.Relocated

/-!
# Sessions can be used again

A session after any calls is a fresh one behind its arena, so the answer to a
call does not depend on the calls before it, whether they failed or not.

The levels of nesting are no part of a session: every call starts to count them
at zero. One counter for all calls makes no difference, because each of them
releases it.
-/

namespace ExprFront

/-! ## Calls -/

/-- A call of a session. -/
inductive Call where
  | expression (range : TokenRange)
  | longest (range : TokenRange)
  | program (range : TokenRange) (statements : List Statement)

/-- The node that a call answers, and for the longest expression the index after it. -/
structure Found where
  root : NodeId
  next : Option Nat

/-- What is found, with the number of the node raised. -/
def Found.raised (offset : Nat) (found : Found) : Found :=
  { found with root := offset + found.root }

namespace Session

/-- The answer to a call. -/
def answer (s : Session) : Call → Answer Found
  | .expression range => ((s.expression range).1.map (⟨·, none⟩), (s.expression range).2)
  | .longest range =>
      ((s.longest range).1.map fun found => ⟨found.1, some found.2⟩, (s.longest range).2)
  | .program range statements =>
      ((s.program range statements).1.map (⟨·, none⟩), (s.program range statements).2)

/-- The session after calls, whatever they answered. -/
def afterCalls (s : Session) (calls : List Call) : Session :=
  calls.foldl (fun s call => (s.answer call).2) s

theorem answer_behind
    (s : Session) (a : Arena) (call : Call) :
    (s.behind a).answer call =
      ((s.answer call).1.map (Found.raised a.size), (s.answer call).2.behind a) := by
  cases call with
  | expression range =>
      simp only [answer, expression_behind]
      cases (s.expression range).1 <;> rfl
  | longest range =>
      simp only [answer, longest_behind]
      cases (s.longest range).1 <;> rfl
  | program range statements =>
      simp only [answer, program_behind]
      cases (s.program range statements).1 <;> rfl

/-! ## Tokens and choices -/

/-- The two sessions differ in their arenas at most. -/
def SameInput (s after : Session) : Prop :=
  after.tokens = s.tokens ∧ after.config = s.config

theorem SameInput.trans
    {s t u : Session} (hst : s.SameInput t) (htu : t.SameInput u) : s.SameInput u :=
  ⟨htu.1.trans hst.1, htu.2.trans hst.2⟩

theorem sameInput_abandon
    (s : Session) (trees : List Tree) : s.SameInput (s.abandon trees) := by
  unfold abandon
  split <;> exact ⟨rfl, rfl⟩

theorem sameInput_commit
    {α : Type} (s : Session) (result : Except Fault (α × Arena)) :
    s.SameInput (s.commit result).2 := by
  cases result <;> exact ⟨rfl, rfl⟩

theorem sameInput_expression
    (s : Session) (range : TokenRange) : s.SameInput (s.expression range).2 := by
  have hread :
      s.SameInput (if s.normalizes range then s.normalized range else s.direct range).2 := by
    split
    · unfold normalized
      split
      · exact ⟨rfl, rfl⟩
      · split
        · exact ⟨rfl, rfl⟩
        · exact sameInput_commit s _
    · unfold direct
      split
      · exact sameInput_abandon s _
      · exact sameInput_commit s _
  unfold expression
  split
  · rename_i hanswer
    rwa [hanswer] at hread
  · rename_i hanswer
    rw [hanswer] at hread
    exact hread.trans (sameInput_commit _ _)

theorem sameInput_longest
    (s : Session) (range : TokenRange) : s.SameInput (s.longest range).2 := by
  unfold longest
  split
  · exact sameInput_abandon s _
  · exact sameInput_commit s _

theorem sameInput_programStatements
    (program : NodeId) (statements : List Statement) (s : Session) :
    s.SameInput (programStatements program statements s).2 := by
  induction statements generalizing s with
  | nil => exact ⟨rfl, rfl⟩
  | cons statement more ih =>
      rw [programStatements]
      split
      · exact ih s
      · have hexpression := s.sameInput_expression statement.range
        split
        · rename_i hanswer
          rwa [hanswer] at hexpression
        · rename_i root after hanswer
          rw [hanswer] at hexpression
          split
          · rename_i arena hpush
            exact hexpression.trans (ih { after with arena })
          · exact hexpression

theorem sameInput_answer
    (s : Session) (call : Call) : s.SameInput (s.answer call).2 := by
  cases call with
  | expression range => exact s.sameInput_expression range
  | longest range => exact s.sameInput_longest range
  | program range statements =>
      exact sameInput_programStatements _ statements
        { s with arena := (s.arena.add .program range).2 }

theorem sameInput_afterCalls
    (s : Session) (calls : List Call) : s.SameInput (s.afterCalls calls) := by
  induction calls generalizing s with
  | nil => exact ⟨rfl, rfl⟩
  | cons call calls ih => exact (s.sameInput_answer call).trans (ih _)

/-- A session is a fresh one behind its arena. -/
theorem SameInput.eq_behind
    {tokens : Array Token} {config : Config} {s : Session}
    (h : (start tokens config).SameInput s) : s = (start tokens config).behind s.arena := by
  obtain ⟨htokens, hconfig⟩ := h
  obtain ⟨tokens, config, arena⟩ := s
  cases htokens
  cases hconfig
  simp [behind, start]

end Session

/-! ## One counter for all calls -/

/-- A session with the number of levels of nesting that are open. -/
structure CountedSession where
  session : Session
  depth : Nat

namespace CountedSession

/-- What a call answers, and the session and the open levels after it. -/
abbrev Answer (α : Type) := Except ParseError α × CountedSession

/-- The answer of a session, with so many levels open after it. -/
def keeping {α : Type} (depth : Nat) (answer : Session.Answer α) : Answer α :=
  (answer.1, ⟨answer.2, depth⟩)

/-- The expression in a range, read as it was written. -/
def direct (c : CountedSession) (range : TokenRange) : Answer NodeId :=
  match (Counted.whole c.session.reading range .expression).outcome c.depth with
  | (.error failure, depth) => keeping depth (c.session.refuse failure)
  | (.ok tree, depth) => keeping depth (c.session.commit (c.session.arena.build tree))

/-- The expression that fills a range. A grouped one is read apart, with a counter of its own. -/
def expression (c : CountedSession) (range : TokenRange) : Answer NodeId :=
  match
    if c.session.normalizes range then keeping c.depth (c.session.normalized range)
    else c.direct range with
  | (.error e, c) => (.error e, c)
  | (.ok inner, c) => keeping c.depth (c.session.commit (c.session.enclose range inner))

/-- The longest expression at the start of a range, and the index after it. -/
def longest (c : CountedSession) (range : TokenRange) : Answer (NodeId × Nat) :=
  match (Counted.longest c.session.reading range).outcome c.depth with
  | (.error failure, depth) => keeping depth (c.session.refuse failure)
  | (.ok (tree, next), depth) =>
      keeping depth
        (c.session.commit ((c.session.arena.build tree).map fun (id, arena) => ((id, next), arena)))

/-- The value statements are read one after the other and put below the node of the program. -/
def programStatements (program : NodeId) : List Statement → CountedSession → Answer NodeId
  | [], c => (.ok program, c)
  | statement :: more, c =>
      match statement.kind with
      | .directive _ => programStatements program more c
      | .value =>
          match c.expression statement.range with
          | (.error e, c) => (.error e, c)
          | (.ok root, c) =>
              match c.session.arena.pushBack program root with
              | .ok arena => programStatements program more ⟨{ c.session with arena }, c.depth⟩
              | .error f => (.error (.fault f), c)

/-- The program in a range, of which the statements are known. -/
def program (c : CountedSession) (range : TokenRange) (statements : List Statement) :
    Answer NodeId :=
  let (id, arena) := c.session.arena.add .program range
  programStatements id statements ⟨{ c.session with arena }, c.depth⟩

/-- The answer to a call. -/
def answer (c : CountedSession) : Call → Answer Found
  | .expression range => ((c.expression range).1.map (⟨·, none⟩), (c.expression range).2)
  | .longest range =>
      ((c.longest range).1.map fun found => ⟨found.1, some found.2⟩, (c.longest range).2)
  | .program range statements =>
      ((c.program range statements).1.map (⟨·, none⟩), (c.program range statements).2)

/-- The session after calls, whatever they answered. -/
def afterCalls (c : CountedSession) (calls : List Call) : CountedSession :=
  calls.foldl (fun c call => (c.answer call).2) c

theorem expression_eq
    (s : Session) (range : TokenRange) :
    expression ⟨s, 0⟩ range = keeping 0 (s.expression range) := by
  have hdirect : direct ⟨s, 0⟩ range = keeping 0 (s.direct range) := by
    unfold direct Session.direct
    rw [Counted.releases_whole s.reading range .expression]
    cases s.reading.whole range .expression <;> rfl
  have hread : (if s.normalizes range then keeping 0 (s.normalized range)
      else direct ⟨s, 0⟩ range) =
      keeping 0 (if s.normalizes range then s.normalized range else s.direct range) := by
    split
    · rfl
    · exact hdirect
  unfold expression Session.expression
  dsimp only
  rw [hread]
  rcases if s.normalizes range then s.normalized range else s.direct range with ⟨_ | inner, after⟩
  · rfl
  · rfl

theorem longest_eq
    (s : Session) (range : TokenRange) : longest ⟨s, 0⟩ range = keeping 0 (s.longest range) := by
  unfold longest Session.longest
  rw [Counted.releases_longest s.reading range]
  cases s.reading.longest range <;> rfl

theorem programStatements_eq
    (program : NodeId) (statements : List Statement) (s : Session) :
    programStatements program statements ⟨s, 0⟩ =
      keeping 0 (Session.programStatements program statements s) := by
  induction statements generalizing s with
  | nil => rfl
  | cons statement more ih =>
      rw [programStatements, Session.programStatements]
      cases statement.kind with
      | directive d => exact ih s
      | value =>
          dsimp only
          rw [expression_eq]
          rcases s.expression statement.range with ⟨_ | root, after⟩
          · rfl
          · dsimp only [keeping]
            cases after.arena.pushBack program root with
            | ok arena => exact ih { after with arena }
            | error f => rfl

/-- If no level is open before a call, its answer is that of the session and no level is open
after it. -/
theorem answer_eq
    (s : Session) (call : Call) : answer ⟨s, 0⟩ call = keeping 0 (s.answer call) := by
  cases call with
  | expression range =>
      rw [answer, expression_eq]
      rfl
  | longest range =>
      rw [answer, longest_eq]
      rfl
  | program range statements =>
      have hrun := programStatements_eq s.arena.size statements
        { s with arena := (s.arena.add .program range).2 }
      simp only [answer, program, Arena.add_fst, hrun]
      rfl

theorem afterCalls_eq
    (s : Session) (calls : List Call) : afterCalls ⟨s, 0⟩ calls = ⟨s.afterCalls calls, 0⟩ := by
  induction calls generalizing s with
  | nil => rfl
  | cons call calls ih =>
      rw [afterCalls, List.foldl_cons, answer_eq]
      exact ih _

end CountedSession

namespace Session

/-- Whatever calls came before and however they ended, a call finds no level of nesting open and
leaves none open, leaves all nodes as they are, and answers what it answers in a fresh session,
with the new nodes behind the old ones. -/
theorem answer_afterCalls
    (tokens : Array Token) (config : Config) (earlier : List Call) (call : Call) :
    let before := (start tokens config).afterCalls earlier
    let fresh := (start tokens config).answer call
    (CountedSession.afterCalls ⟨start tokens config, 0⟩ earlier).answer call =
        ((before.answer call).1, ⟨(before.answer call).2, 0⟩) ∧
      (∀ id < before.arena.size,
        (before.answer call).2.arena.node? id = before.arena.node? id) ∧
      (before.answer call).1 = fresh.1.map (Found.raised before.arena.size) ∧
      (before.answer call).2 = { fresh.2 with arena := before.arena.append fresh.2.arena } := by
  intro before fresh
  have hbehind : before = (start tokens config).behind before.arena :=
    (sameInput_afterCalls (start tokens config) earlier).eq_behind
  have hanswer : before.answer call =
      (fresh.1.map (Found.raised before.arena.size), fresh.2.behind before.arena) := by
    rw [← answer_behind, ← hbehind]
  refine ⟨?_, ?_, ?_, ?_⟩
  · rw [CountedSession.afterCalls_eq, CountedSession.answer_eq]
    rfl
  · rw [hanswer]
    exact Arena.extends_append before.arena fresh.2.arena
  · rw [hanswer]
  · rw [hanswer]
    rfl

end Session

end ExprFront
