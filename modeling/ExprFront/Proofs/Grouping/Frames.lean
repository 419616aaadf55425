import ExprFront.Proofs.Phrase.Brackets
import ExprFront.Proofs.Phrase.Order

/-!
# Grouping as a machine over phrases

`Phrase.grouped` is what grouping makes of a phrase: its tokens with inserted
parentheses around each application. While an expression is grouped, the open
applications are the frames of operations that wait for their right operand.
So the progress of a grouping is a list of frames, with or without an operand
that was read last: `Ground.waiting` and `Ground.holding` write this out as
progress, and each step of grouping is a step on frames and phrases.
-/

namespace ExprFront

open Grouping

/-! ## Grouped phrases -/

namespace Grouping

/-- The copy of an input token. -/
def copy (tokens : Array Token) (index : Nat) : List GroupedToken :=
  (tokens[index]?.map fun t => ⟨t, some index⟩).toList

/-- Entries with parentheses inserted around them, of which the closing one stands at the input
token `anchor`. -/
def enclose (tokens : Array Token) (anchor : Nat) (entries : List GroupedToken) :
    List GroupedToken :=
  match entries.head?, tokens[anchor]? with
  | some first, some last =>
      ⟨first.token.insertedAt .lparen, none⟩ :: entries ++ [⟨last.insertedAt .rparen, none⟩]
  | _, _ => entries

end Grouping

namespace Phrase

mutual

/-- The tokens of the phrase that starts at an index, with parentheses around each application. -/
def grouped (tokens : Array Token) : Phrase → (start : Nat) → List GroupedToken
  | leaf _, start => copy tokens start
  | group _ parts, start =>
      copy tokens start ++ groupedParts tokens parts (start + 1) ++
        copy tokens (start + 1 + partsWidth parts)
  | before _ operand, start =>
      enclose tokens start (copy tokens start ++ operand.grouped tokens (start + 1))
  | after operand _, start =>
      enclose tokens (start + operand.width)
        (operand.grouped tokens start ++ copy tokens (start + operand.width))
  | applied callee _ parts, start =>
      enclose tokens (start + callee.width + 1 + partsWidth parts)
        (callee.grouped tokens start ++ (copy tokens (start + callee.width) ++
          groupedParts tokens parts (start + callee.width + 1) ++
          copy tokens (start + callee.width + 1 + partsWidth parts)))
  | between left _ right, start =>
      enclose tokens (start + left.width)
        (left.grouped tokens start ++ copy tokens (start + left.width) ++
          right.grouped tokens (start + left.width + 1))

/-- The tokens of the parts of a group. -/
def groupedParts (tokens : Array Token) : List Phrase → (start : Nat) → List GroupedToken
  | [], _ => []
  | p :: ps, start => p.grouped tokens start ++ groupedLater tokens ps (start + p.width)

/-- The tokens of the later parts of a group, each with the comma before it. -/
def groupedLater (tokens : Array Token) : List Phrase → (start : Nat) → List GroupedToken
  | [], _ => []
  | p :: ps, start =>
      copy tokens start ++ (p.grouped tokens (start + 1) ++
        groupedLater tokens ps (start + 1 + p.width))

end

/-- A bracket group after an operand is grouped like one in the place of an operand. -/
theorem grouped_applied
    (tokens : Array Token) (callee : Phrase) (b : Bracket) (parts : List Phrase) (start : Nat) :
    (applied callee b parts).grouped tokens start =
      enclose tokens (start + callee.width + (group b parts).width - 1)
        (callee.grouped tokens start ++
          (group b parts).grouped tokens (start + callee.width)) := by
  have hanchor : start + callee.width + (group b parts).width - 1 =
      start + callee.width + 1 + partsWidth parts := by
    simp only [width]
    omega
  rw [hanchor, grouped, grouped]

end Phrase

namespace Grouping

variable {tokens : Array Token}

theorem copy_of_getElem?
    {index : Nat} {t : Token} (h : tokens[index]? = some t) :
    copy tokens index = [⟨t, some index⟩] := by
  simp [copy, h]

theorem copy_ne_nil
    {index : Nat} (h : index < tokens.size) : copy tokens index ≠ [] := by
  simp [copy, h]

/-- Input tokens are copied one after the other. -/
theorem take_of_lt
    {index : Nat} (h : index < tokens.size) (entries : List GroupedToken) :
    take tokens index entries.toArray = .ok (entries ++ copy tokens index).toArray := by
  have ht : tokens[index]? = some tokens[index] := Array.getElem?_eq_getElem h
  simp only [take, ht, copy_of_getElem? ht, List.push_toArray]

theorem insertIdx_length
    {α : Type} (front back : List α) (a : α) :
    (front ++ back).insertIdx front.length a = front ++ a :: back := by
  induction front with
  | nil => simp
  | cons x xs ih => simp [ih]

/-- Parentheses are inserted around the last entries. -/
theorem parenthesize_append
    {anchor : Nat} (hanchor : anchor < tokens.size) (front : List GroupedToken)
    {back : List GroupedToken} (hback : back ≠ []) :
    parenthesize tokens front.length anchor (front ++ back).toArray =
      .ok (front ++ enclose tokens anchor back).toArray := by
  obtain ⟨first, more, rfl⟩ := List.exists_cons_of_ne_nil hback
  have hlast : tokens[anchor]? = some tokens[anchor] := Array.getElem?_eq_getElem hanchor
  have hfirst : (front ++ first :: more).toArray[front.length]? = some first := by simp
  have hinsert : (front ++ first :: more).toArray.insertIdxIfInBounds front.length
        ⟨first.token.insertedAt .lparen, none⟩ =
      (front ++ ⟨first.token.insertedAt .lparen, none⟩ :: first :: more).toArray := by
    rw [Array.insertIdxIfInBounds, dif_pos (by simp)]
    apply Array.toList_inj.mp
    rw [Array.toList_insertIdx]
    exact insertIdx_length front (first :: more) _
  simp only [parenthesize, hfirst, hlast, hinsert, enclose, List.head?_cons, List.push_toArray,
    List.append_assoc, List.cons_append]

end Grouping

/-! ## Frames -/

namespace Frame

/-- The number of tokens of a frame. -/
def width : Frame → Nat
  | before _ => 1
  | between left _ => left.width + 1

/-- The tokens from an index on are those of the frame. -/
def Spells (tokens : Array Token) : Frame → (start : Nat) → Prop
  | before op, start => (kindAt tokens start).bind TokenKind.before = some op
  | between left op, start =>
      left.Spells tokens start ∧
        (kindAt tokens (start + left.width)).bind TokenKind.between = some op

/-- The tokens of the frame that starts at an index, of which no more than the left operand is
grouped yet. -/
def entries (tokens : Array Token) : Frame → (start : Nat) → List GroupedToken
  | before _, start => copy tokens start
  | between left _, start => left.grouped tokens start ++ copy tokens (start + left.width)

/-- The open application of a frame. -/
def application : Frame → (start operator : Nat) → OpenApplication
  | before _, start, operator => ⟨.before, Operation.beforePriority, .right, start, operator⟩
  | between _ op, start, operator => .ofOperation op start operator

@[simp] theorem start_application
    (f : Frame) (start operator : Nat) : (f.application start operator).start = start := by
  cases f <;> rfl

@[simp] theorem operator_application
    (f : Frame) (start operator : Nat) : (f.application start operator).operator = operator := by
  cases f <;> rfl

@[simp] theorem priority_application
    (f : Frame) (start operator : Nat) :
    (f.application start operator).priority = f.priority := by
  cases f <;> rfl

@[simp] theorem associativity_application
    (f : Frame) (start operator : Nat) :
    (f.application start operator).associativity = f.associativity := by
  cases f <;> rfl

theorem width_pos (f : Frame) : 0 < f.width := by
  cases f <;> simp [width]

theorem width_close
    (f : Frame) (p : Phrase) : (f.close p).width = f.width + p.width := by
  cases f with
  | before op =>
      simp only [close, Phrase.width, width]
      omega
  | between left op =>
      simp only [close, Phrase.width, width]
      omega

theorem spells_close
    {tokens : Array Token} {f : Frame} {p : Phrase} {start : Nat} (hf : f.Spells tokens start)
    (hp : p.Spells tokens (start + f.width)) : (f.close p).Spells tokens start := by
  cases f with
  | before op => exact ⟨hf, hp⟩
  | between left op => exact ⟨hf.1, hf.2, hp⟩

theorem spine_close
    (f : Frame) (p : Phrase) : (f.close p).spine = p.spine ++ [f] := by
  cases f <;> rfl

/-- A frame is closed by parentheses around its tokens and its right operand, at the operator. -/
theorem grouped_close
    (tokens : Array Token) (f : Frame) (p : Phrase) (start : Nat) :
    (f.close p).grouped tokens start =
      enclose tokens (start + f.width - 1)
        (f.entries tokens start ++ p.grouped tokens (start + f.width)) := by
  cases f <;> rfl

theorem entries_ne_nil
    {tokens : Array Token} {f : Frame} {start : Nat} (h : start + f.width ≤ tokens.size) :
    f.entries tokens start ≠ [] := by
  have hpos := f.width_pos
  cases f with
  | before op => exact copy_ne_nil (by omega)
  | between left op =>
      have : start + left.width < tokens.size := h
      simp [entries, copy_ne_nil this]

/-- The number of tokens of several frames. -/
def totalWidth : List Frame → Nat
  | [] => 0
  | f :: fs => totalWidth fs + f.width

/-- The least priority of what the operand that the innermost frame waits for may hold. -/
def innerLeast : List Frame → Nat
  | [] => 0
  | f :: _ => f.least

end Frame

/-! ## Progress -/

/-- What the grouping of one expression starts from: the input tokens, the result so far and the
index of the first token of the expression. -/
structure Ground where
  tokens : Array Token
  base : List GroupedToken
  first : Nat

namespace Ground

variable (ground : Ground)

/-- The index after the tokens of some frames, which come innermost first. -/
def reached (fs : List Frame) : Nat := ground.first + Frame.totalWidth fs

/-- The result when the tokens of some frames are written. -/
def written : List Frame → List GroupedToken
  | [] => ground.base
  | f :: fs => written fs ++ f.entries ground.tokens (ground.reached fs)

/-- The stack of open applications of some frames. -/
def stack : List Frame → List OpenApplication
  | [] => [.sentinel]
  | f :: fs =>
      f.application (ground.written fs).length (ground.reached (f :: fs) - 1) :: stack fs

/-- The innermost of some frames waits for its operand. -/
def waiting (fs : List Frame) (operandStart : Nat) : Progress :=
  ⟨(ground.written fs).toArray, ground.stack fs, ground.reached fs, operandStart⟩

/-- An operand of the innermost of some frames was read. -/
def holding (fs : List Frame) (p : Phrase) : Progress :=
  ⟨(ground.written fs ++ p.grouped ground.tokens (ground.reached fs)).toArray, ground.stack fs,
    ground.reached fs + p.width, (ground.written fs).length⟩

theorem head_holding
    (fs : List Frame) (p : Phrase) :
    (ground.holding fs p).head = ground.reached fs + p.width := rfl

theorem reached_cons
    (f : Frame) (fs : List Frame) : ground.reached (f :: fs) = ground.reached fs + f.width := by
  simp only [reached, Frame.totalWidth]
  omega

/-! ## Closing frames -/

/-- Frames are closed over an operand from the innermost on, as long as a verdict says so. -/
def settled (verdict : Frame → Except ParseError Bool) :
    List Frame → Phrase → Except ParseError (List Frame × Phrase)
  | [], p => .ok ([], p)
  | f :: fs, p =>
      match verdict f with
      | .ok true => settled verdict fs (f.close p)
      | .ok false => .ok (f :: fs, p)
      | .error e => .error e

theorem reached_of_settled
    {verdict : Frame → Except ParseError Bool} {fs rest : List Frame} {p q : Phrase}
    (h : settled verdict fs p = .ok (rest, q)) :
    ground.reached rest + q.width = ground.reached fs + p.width := by
  induction fs generalizing p with
  | nil =>
      cases h
      rfl
  | cons f fs ih =>
      rw [settled] at h
      split at h
      · rw [ih h, reached_cons, Frame.width_close]
        omega
      · cases h
        rfl
      · cases h

/-- Closing frames moves no token. -/
theorem width_foldl_close
    (closed rest : List Frame) (p : Phrase) :
    ground.reached rest + (closed.foldl (fun operand f => f.close operand) p).width =
      ground.reached (closed ++ rest) + p.width := by
  induction closed generalizing p with
  | nil => rfl
  | cons f fs ih =>
      simp only [List.foldl_cons, List.cons_append, ih, reached_cons, Frame.width_close]
      omega

/-- Closing the innermost frame writes what holding the closed phrase does. -/
theorem parenthesize_holding
    (f : Frame) (fs : List Frame) (p : Phrase)
    (hsize : ground.reached (f :: fs) ≤ ground.tokens.size) :
    parenthesize ground.tokens (ground.written fs).length (ground.reached (f :: fs) - 1)
        (ground.holding (f :: fs) p).out =
      .ok (ground.holding fs (f.close p)).out := by
  have hpos := f.width_pos
  rw [reached_cons] at hsize
  have hback : f.entries ground.tokens (ground.reached fs) ++
      p.grouped ground.tokens (ground.reached fs + f.width) ≠ [] := by
    simp [Frame.entries_ne_nil hsize]
  have hanchor : ground.reached fs + f.width - 1 < ground.tokens.size := by omega
  have hparens := parenthesize_append hanchor (ground.written fs) hback
  rw [← Frame.grouped_close, ← List.append_assoc] at hparens
  simpa only [holding, written, reached_cons] using hparens

/-- Open applications are closed as their frames are. -/
theorem settle_stack
    {verdict : Frame → Except ParseError Bool}
    {closes : OpenApplication → Except ParseError Bool}
    (hcloses : ∀ f start operator, closes (Frame.application f start operator) = verdict f)
    (fs : List Frame) (p : Phrase) (hsize : ground.reached fs ≤ ground.tokens.size) :
    Grouping.settle ground.tokens closes (ground.stack fs) (ground.holding fs p).out
        (ground.written fs).length =
      match settled verdict fs p with
      | .ok (rest, q) =>
          .ok (ground.stack rest, (ground.holding rest q).out, (ground.written rest).length)
      | .error e => .error e := by
  induction fs generalizing p with
  | nil => rfl
  | cons f fs ih =>
      have hparens := ground.parenthesize_holding f fs p hsize
      have hrest := ih (f.close p) (by rw [reached_cons] at hsize; omega)
      obtain ⟨below, rest, hstack⟩ : ∃ below rest, ground.stack fs = below :: rest := by
        cases fs <;> exact ⟨_, _, rfl⟩
      simp only [hstack] at hrest
      simp only [stack, hstack, Grouping.settle, hcloses, settled]
      cases verdict f with
      | error e => rfl
      | ok closed =>
          cases closed with
          | false => simp [bind, Except.bind, stack, hstack]
          | true => simp [bind, Except.bind, hparens, hrest]

theorem settle_holding
    {verdict : Frame → Except ParseError Bool}
    {closes : OpenApplication → Except ParseError Bool}
    (hcloses : ∀ f start operator, closes (Frame.application f start operator) = verdict f)
    (fs : List Frame) (p : Phrase) (hsize : ground.reached fs ≤ ground.tokens.size) :
    (ground.holding fs p).settle ground.tokens closes =
      match settled verdict fs p with
      | .ok (rest, q) => .ok (ground.holding rest q)
      | .error e => .error e := by
  have hstack := ground.settle_stack hcloses fs p hsize
  have hsettle : (ground.holding fs p).settle ground.tokens closes =
      match Grouping.settle ground.tokens closes (ground.stack fs) (ground.holding fs p).out
        (ground.written fs).length with
      | .ok (stack, out, operandStart) =>
          .ok { ground.holding fs p with stack, out, operandStart }
      | .error e => .error e := by
    simp only [Progress.settle, bind, Except.bind, holding]
    split <;> simp_all [pure, Except.pure]
  rw [hsettle, hstack]
  cases hsettled : settled verdict fs p with
  | error e => rfl
  | ok result =>
      obtain ⟨rest, q⟩ := result
      have hreached := ground.reached_of_settled hsettled
      simp only [holding, hreached]

/-- Frames that the verdict closes are closed up to the first one that it does not close. -/
theorem settled_append
    {verdict : Frame → Except ParseError Bool} {closed rest : List Frame} {p : Phrase}
    (hclosed : ∀ f ∈ closed, verdict f = .ok true)
    (hrest : ∀ f ∈ rest.head?, verdict f = .ok false) :
    settled verdict (closed ++ rest) p =
      .ok (rest, closed.foldl (fun operand f => f.close operand) p) := by
  induction closed generalizing p with
  | nil =>
      cases rest with
      | nil => rfl
      | cons f fs => simp [settled, hrest f rfl]
  | cons f fs ih =>
      have hf := hclosed f List.mem_cons_self
      have hfs := ih (p := f.close p) fun g hg => hclosed g (List.mem_cons_of_mem f hg)
      simp [settled, hf, hfs]

/-- Whatever is closed is closed by the verdict, and so is whatever is left. -/
theorem exists_of_settled
    {verdict : Frame → Except ParseError Bool} {fs rest : List Frame} {p q : Phrase}
    (h : settled verdict fs p = .ok (rest, q)) :
    ∃ closed, fs = closed ++ rest ∧ q = closed.foldl (fun operand f => f.close operand) p ∧
      (∀ f ∈ closed, verdict f = .ok true) ∧ ∀ f ∈ rest.head?, verdict f = .ok false := by
  induction fs generalizing p with
  | nil =>
      cases h
      exact ⟨[], rfl, rfl, by simp, by simp⟩
  | cons f fs ih =>
      rw [settled] at h
      split at h
      · rename_i hf
        obtain ⟨closed, rfl, rfl, hclosed, hrest⟩ := ih h
        exact ⟨f :: closed, rfl, rfl, List.forall_mem_cons.mpr ⟨hf, hclosed⟩, hrest⟩
      · rename_i hf
        cases h
        exact ⟨[], rfl, rfl, by simp, by simpa using hf⟩
      · cases h

end Ground

end ExprFront
