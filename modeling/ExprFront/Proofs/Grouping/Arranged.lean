import ExprFront.Proofs.Grouping.Recorded
import ExprFront.Proofs.Vocabulary.Priority
import Mathlib.Data.List.Chain

/-!
# The stack of open applications

Parentheses are inserted in the middle of the result while other applications
hold the places where their spans start, those of the expressions around
included. Each time that the operators after an operand are about to be read,
these places increase towards the top of the stack and lie before the last
operand, so whatever is put in parentheses next starts behind them and moves
none of their tokens. Along with the places, priorities increase: an application
stays open below another one only if that one binds more tightly, or as tightly
and from the right, or stands before its operand.

All of this is stated about the recorded run. It has the outcome of the run
itself, and every event of its record is as described.
-/

namespace ExprFront.Grouping

/-! ## Arranged stacks -/

/-- The upper one of two applications stands before its operand, binds more tightly, or binds as
tightly and groups from the right. -/
def Outranks (above below : OpenApplication) : Prop :=
  above.fixity = .before ∨ below.priority < above.priority ∨
    (above.priority = below.priority ∧ above.associativity = .right)

/-- The open applications of an expression, the innermost first. Their spans start in the order in
which they were opened, at or after the length of the result with which the expression began, and
before a bound. -/
structure Stacked (begun bound : Nat) (cs : List OpenApplication) : Prop where
  priority_ne : ∀ c ∈ cs, c.priority ≠ 0
  starts : cs.Pairwise fun above below => below.start < above.start
  begun_le : ∀ c ∈ cs, begun ≤ c.start
  start_lt : ∀ c ∈ cs, c.start < bound
  outranks : cs.IsChain Outranks

/-- Between two turns, the stack of an expression lies on its sentinel and is in order, and all
that is open starts before the last operand, which is not empty. Tokens and their sources are
equally many. -/
structure Progress.Arranged (begun : Nat) (p : Progress) : Prop where
  bottom : p.stack.getLast? = some .sentinel
  stacked : Stacked begun p.operandStart (waiting p.stack)
  begun_le : begun ≤ p.operandStart
  operandStart_lt : p.operandStart < p.out.size
  sizes : (Grouped.mk p.out).tokens.size = (Grouped.mk p.out).sources.size

/-- What is recorded is as it should be: the stack is arranged at every turn, and parentheses move
no token at which a waiting application starts. -/
def Event.Holds : Event → Prop
  | .turn begun p => p.Arranged begun
  | .wrap pending before after =>
      ∀ c ∈ pending, c.start < before.size ∧ after[c.start]? = before[c.start]?

namespace Stacked

variable {begun bound larger : Nat} {cs : List OpenApplication} {c : OpenApplication}

theorem nil (begun bound : Nat) : Stacked begun bound [] :=
  ⟨by simp, .nil, by simp, by simp, .nil⟩

theorem mono
    (h : Stacked begun bound cs) (hle : bound ≤ larger) : Stacked begun larger cs :=
  ⟨h.priority_ne, h.starts, h.begun_le, fun c hc => Nat.lt_of_lt_of_le (h.start_lt c hc) hle,
    h.outranks⟩

/-- The rest of the stack starts before its top. -/
theorem of_cons
    (h : Stacked begun bound (c :: cs)) : Stacked begun c.start cs :=
  ⟨fun d hd => h.priority_ne d (List.mem_cons_of_mem c hd), h.starts.of_cons,
    fun d hd => h.begun_le d (List.mem_cons_of_mem c hd),
    fun d hd => (List.pairwise_cons.mp h.starts).1 d hd, h.outranks.of_cons⟩

/-- What is opened at the bound may be put on top if it outranks what is there. -/
theorem push
    (h : Stacked begun bound cs) (hpriority : c.priority ≠ 0) (hbegun : begun ≤ c.start)
    (hbound : bound ≤ c.start) (hlarger : c.start < larger)
    (houtranks : ∀ top ∈ cs.head?, Outranks c top) : Stacked begun larger (c :: cs) where
  priority_ne := List.forall_mem_cons.mpr ⟨hpriority, h.priority_ne⟩
  starts := List.pairwise_cons.mpr
    ⟨fun d hd => Nat.lt_of_lt_of_le (h.start_lt d hd) hbound, h.starts⟩
  begun_le := List.forall_mem_cons.mpr ⟨hbegun, h.begun_le⟩
  start_lt := List.forall_mem_cons.mpr
    ⟨hlarger, fun d hd => Nat.lt_trans (Nat.lt_of_lt_of_le (h.start_lt d hd) hbound) hlarger⟩
  outranks := List.isChain_cons.mpr ⟨houtranks, h.outranks⟩

/-- What waits around an expression, or in it below a bound, starts before the bound. -/
theorem start_lt_of_mem_append
    {outer : List OpenApplication} (h : Stacked begun bound cs)
    (houter : ∀ c ∈ outer, c.start < begun) (hbegun : begun ≤ bound) :
    ∀ c ∈ cs ++ outer, c.start < bound := by
  intro c hc
  rcases List.mem_append.mp hc with hc | hc
  · exact h.start_lt c hc
  · exact Nat.lt_of_lt_of_le (houter c hc) hbegun

end Stacked

theorem waiting_append_sentinel
    (cs : List OpenApplication) : waiting (cs ++ [.sentinel]) = cs :=
  List.dropLast_concat

theorem stack_eq_of_bottom
    {stack : List OpenApplication} (h : stack.getLast? = some .sentinel) :
    stack = waiting stack ++ [.sentinel] := by
  obtain ⟨front, rfl⟩ := List.getLast?_eq_some_iff.mp h
  rw [waiting_append_sentinel]

theorem sizes_eq (out : Array GroupedToken) :
    (Grouped.mk out).tokens.size = (Grouped.mk out).sources.size := by
  simp [Grouped.tokens, Grouped.sources]

/-! ## Results that keep what they have -/

/-- The longer result has the same entries below a length. -/
structure Keeps (length : Nat) (out after : Array GroupedToken) : Prop where
  size_le : out.size ≤ after.size
  getElem?_eq : ∀ i < length, after[i]? = out[i]?

/-- Something was appended to the result. -/
structure Appends (out after : Array GroupedToken) : Prop where
  keeps : Keeps out.size out after
  size_lt : out.size < after.size

namespace Keeps

variable {length shorter : Nat} {out middle after : Array GroupedToken}

theorem refl (length : Nat) (out : Array GroupedToken) : Keeps length out out :=
  ⟨Nat.le_refl _, fun _ _ => rfl⟩

theorem trans
    (h : Keeps length out middle) (hnext : Keeps length middle after) : Keeps length out after :=
  ⟨Nat.le_trans h.size_le hnext.size_le,
    fun i hi => (hnext.getElem?_eq i hi).trans (h.getElem?_eq i hi)⟩

theorem mono
    (h : Keeps length out after) (hle : shorter ≤ length) : Keeps shorter out after :=
  ⟨h.size_le, fun i hi => h.getElem?_eq i (Nat.lt_of_lt_of_le hi hle)⟩

end Keeps

theorem Appends.trans
    {out middle after : Array GroupedToken}
    (h : Appends out middle) (hnext : Appends middle after) : Appends out after :=
  ⟨h.keeps.trans (hnext.keeps.mono (Nat.le_of_lt h.size_lt)), Nat.lt_trans h.size_lt hnext.size_lt⟩

/-- What starts in a result starts in a longer one as well. -/
theorem Appends.starts_lt
    {out after : Array GroupedToken} (h : Appends out after) {cs : List OpenApplication}
    (hcs : ∀ c ∈ cs, c.start < out.size) : ∀ c ∈ cs, c.start < after.size :=
  fun c hc => Nat.lt_trans (hcs c hc) h.size_lt

theorem appends_push (out : Array GroupedToken) (e : GroupedToken) : Appends out (out.push e) := by
  refine ⟨⟨by simp, fun i hi => ?_⟩, by simp⟩
  rw [Array.getElem?_push, if_neg (by omega)]

/-- Parentheses around a span keep what stands before it. -/
theorem keeps_of_parenthesize
    {tokens : Array Token} {start anchor : Nat} {out after : Array GroupedToken}
    (h : parenthesize tokens start anchor out = .ok after) :
    Keeps start out after ∧ out.size < after.size := by
  unfold parenthesize at h
  split at h
  · rename_i first last hfirst hlast
    have hstart : start < out.size := (Array.getElem?_eq_some_iff.mp hfirst).1
    cases h
    rw [Array.insertIdxIfInBounds, dif_pos (Nat.le_of_lt hstart)]
    have hsize : ((out.insertIdx start ⟨first.token.insertedAt .lparen, none⟩
        (Nat.le_of_lt hstart)).push ⟨last.insertedAt .rparen, none⟩).size = out.size + 2 := by
      rw [Array.size_push, Array.size_insertIdx]
    refine ⟨⟨by omega, fun i hi => ?_⟩, by omega⟩
    rw [Array.getElem?_push, Array.getElem?_insertIdx, Array.size_insertIdx, if_neg (by omega),
      if_pos hi]
  · cases h
  · cases h

/-! ## Recorded runs -/

/-- The recorded run has the outcome, what it records is as it should be, and so is its value. -/
structure Shows {α : Type} (goal : α → Prop) (run : Recorded α) (outcome : Except ParseError α) :
    Prop where
  result_eq : run.result = outcome
  holds : ∀ event ∈ run.events, event.Holds
  goal : ∀ a, outcome = .ok a → goal a

namespace Shows

variable {α β : Type} {goal : α → Prop}

theorem quiet
    {outcome : Except ParseError α} (h : ∀ a, outcome = .ok a → goal a) :
    Shows goal (.quiet outcome) outcome :=
  ⟨rfl, by simp [Recorded.quiet], h⟩

/-- Nothing has to be known of a value that is not recorded. -/
theorem any (outcome : Except ParseError α) :
    Shows (fun _ => True) (.quiet outcome) outcome :=
  quiet fun _ _ => trivial

theorem error (e : ParseError) : Shows goal (.quiet (.error e)) (.error e) :=
  quiet fun _ h => by cases h

theorem value
    {a : α} (h : goal a) : Shows goal (pure a) (.ok a) :=
  quiet fun _ heq => Except.ok.inj heq ▸ h

theorem mono
    {weaker : α → Prop} {run : Recorded α} {outcome : Except ParseError α}
    (h : Shows goal run outcome) (hweaker : ∀ a, goal a → weaker a) : Shows weaker run outcome :=
  ⟨h.result_eq, h.holds, fun a ha => hweaker a (h.goal a ha)⟩

/-- A sequence of runs shows what its last one shows. -/
theorem bind
    {last : β → Prop} {run : Recorded α} {outcome : Except ParseError α} {next : α → Recorded β}
    {after : α → Except ParseError β} (h : Shows goal run outcome)
    (hnext : ∀ a, goal a → Shows last (next a) (after a)) :
    Shows last (run >>= next) (outcome >>= after) := by
  obtain ⟨hresult, hholds, hgoal⟩ := h
  obtain ⟨events, result⟩ := run
  subst hresult
  cases result with
  | error e => exact ⟨rfl, hholds, fun _ h => by cases h⟩
  | ok a =>
      obtain ⟨hresult', hholds', hlast⟩ := hnext a (hgoal a rfl)
      refine ⟨hresult', fun event hevent => ?_, hlast⟩
      rcases List.mem_append.mp hevent with hevent | hevent
      · exact hholds event hevent
      · exact hholds' event hevent

/-- An event that holds may be recorded before a run. -/
theorem note
    {event : Event} {run : Recorded α} {outcome : Except ParseError α} (hevent : event.Holds)
    (h : Shows goal run outcome) : Shows goal (Recorded.note event >>= fun _ => run) outcome :=
  ⟨h.result_eq, List.forall_mem_cons.mpr ⟨hevent, h.holds⟩, h.goal⟩

end Shows

variable {tokens : Array Token}

theorem shows_take
    (index : Nat) (out : Array GroupedToken) :
    Shows (Appends out) (.quiet (take tokens index out)) (take tokens index out) := by
  refine Shows.quiet fun after hafter => ?_
  unfold take at hafter
  split at hafter
  · cases hafter
    exact appends_push out _
  · cases hafter

/-- Parentheses move none of the tokens at which waiting applications start, if these start
before the span. -/
theorem shows_parenthesize
    {pending : List OpenApplication} {start : Nat} (anchor : Nat) {out : Array GroupedToken}
    (hpending : ∀ c ∈ pending, c.start < start) (hstart : start < out.size) :
    Shows (fun after => Keeps start out after ∧ out.size < after.size)
      (Recorded.parenthesize tokens pending start anchor out)
      (parenthesize tokens start anchor out) := by
  unfold Recorded.parenthesize
  cases hafter : parenthesize tokens start anchor out with
  | error e => exact .error e
  | ok after =>
      have hkeeps := keeps_of_parenthesize hafter
      refine ⟨rfl, List.forall_mem_singleton.mpr fun c hc => ?_,
        fun a ha => Except.ok.inj ha ▸ hkeeps⟩
      exact ⟨Nat.lt_trans (hpending c hc) hstart, hkeeps.1.getElem?_eq _ (hpending c hc)⟩

/-! ## Open applications are closed -/

theorem Progress.arranged_mk
    {begun operandStart : Nat} (cs : List OpenApplication) {out : Array GroupedToken} (head : Nat)
    (hstacked : Stacked begun operandStart cs) (hbegun : begun ≤ operandStart)
    (hoperand : operandStart < out.size) :
    Progress.Arranged begun ⟨out, cs ++ [.sentinel], head, operandStart⟩ where
  bottom := by simp
  stacked := by rwa [waiting_append_sentinel]
  begun_le := hbegun
  operandStart_lt := hoperand
  sizes := sizes_eq out

/-- All that waits starts before the last operand. -/
theorem Progress.Arranged.start_lt_operandStart
    {begun : Nat} {outer : List OpenApplication} {p : Progress} (h : p.Arranged begun)
    (houter : ∀ c ∈ outer, c.start < begun) :
    ∀ c ∈ waiting p.stack ++ outer, c.start < p.operandStart :=
  h.stacked.start_lt_of_mem_append houter h.begun_le

/-- A longer result that keeps what stands before the last operand leaves the stack arranged. -/
theorem Progress.Arranged.longer
    {begun : Nat} {p : Progress} {out : Array GroupedToken} (h : p.Arranged begun)
    (hout : p.out.size ≤ out.size) (head : Nat) :
    Progress.Arranged begun { p with out, head } :=
  ⟨h.bottom, h.stacked, h.begun_le, Nat.lt_of_lt_of_le h.operandStart_lt hout, sizes_eq out⟩

/-- Some applications were closed: the others are arranged as before, and the innermost of them is
not to be closed. -/
structure Settled (begun : Nat) (closes : OpenApplication → Except ParseError Bool)
    (p settled : Progress) : Prop where
  arranged : settled.Arranged begun
  keeps : Keeps begun p.out settled.out
  head_eq : settled.head = p.head
  stays : ∀ top ∈ (waiting settled.stack).head?, closes top = .ok false

section Settle

variable {outer : List OpenApplication} {begun : Nat}
variable {closes : OpenApplication → Except ParseError Bool}

/-- Whatever is closed starts behind all that still waits. -/
theorem shows_settle
    (tokens : Array Token) (closes : OpenApplication → Except ParseError Bool)
    (houter : ∀ c ∈ outer, c.start < begun) {cs : List OpenApplication} {operandStart : Nat}
    (hstacked : Stacked begun operandStart cs) (hbegun : begun ≤ operandStart)
    {out : Array GroupedToken} (hoperand : operandStart < out.size) (head : Nat) :
    Shows (fun r => Settled begun closes ⟨out, cs ++ [.sentinel], head, operandStart⟩
        ⟨r.2.1, r.1, head, r.2.2⟩)
      (Recorded.settle tokens outer closes (cs ++ [.sentinel]) out operandStart)
      (settle tokens closes (cs ++ [.sentinel]) out operandStart) := by
  induction cs generalizing out operandStart with
  | nil =>
      refine Shows.value ⟨Progress.arranged_mk [] head hstacked hbegun hoperand, .refl _ _,
        rfl, ?_⟩
      simp [waiting]
  | cons top cs ih =>
      obtain ⟨below, rest, hbelow⟩ : ∃ below rest, cs ++ [.sentinel] = below :: rest := by
        cases cs with
        | nil => exact ⟨_, _, rfl⟩
        | cons below rest => exact ⟨_, _, rfl⟩
      have hrest := hstacked.of_cons
      have htopBegun := hstacked.begun_le top List.mem_cons_self
      have htopLt := hstacked.start_lt top List.mem_cons_self
      rw [List.cons_append, hbelow, Recorded.settle, settle, ← hbelow, waiting_append_sentinel]
      refine (Shows.quiet fun _ h => h).bind fun close hclose => ?_
      cases close with
      | false =>
          refine Shows.value ⟨Progress.arranged_mk (top :: cs) head hstacked hbegun hoperand,
            .refl _ _, rfl, ?_⟩
          have hwaiting := waiting_append_sentinel (top :: cs)
          rw [List.cons_append] at hwaiting
          simpa [hwaiting] using hclose
      | true =>
          have hpending := hrest.start_lt_of_mem_append houter htopBegun
          refine (shows_parenthesize top.operator hpending (by omega)).bind fun after hafter => ?_
          refine (ih hrest htopBegun (by omega)).mono fun r hr => ?_
          exact ⟨hr.arranged, (hafter.1.mono htopBegun).trans hr.keeps, rfl, hr.stays⟩

theorem Progress.Arranged.shows_settled
    {p : Progress} (h : p.Arranged begun) (houter : ∀ c ∈ outer, c.start < begun) :
    Shows (Settled begun closes p) (Recorded.settled tokens outer p closes)
      (p.settle tokens closes) := by
  have hsettle := shows_settle tokens closes houter h.stacked h.begun_le h.operandStart_lt p.head
  rw [← stack_eq_of_bottom h.bottom] at hsettle
  exact hsettle.bind fun r hr => Shows.value hr

theorem Progress.Arranged.shows_finish
    {p : Progress} (h : p.Arranged begun) (houter : ∀ c ∈ outer, c.start < begun) :
    Shows (Keeps begun p.out) (Recorded.finish tokens outer p) (p.finish tokens) :=
  (h.shows_settled houter).bind fun _ hsettled => Shows.value hsettled.keeps

end Settle

/-! ## Bracket groups -/

/-- Expressions within others are run as recorded, whichever applications are open around them. -/
def RecurseShows (recorded : List OpenApplication → TokenRange → Recorder)
    (recurse : TokenRange → Emit) : Prop :=
  ∀ outer range out, (∀ c ∈ outer, c.start < out.size) →
    Shows (Appends out) (recorded outer range out) (recurse range out)

section Runs

variable {recorded : List OpenApplication → TokenRange → Recorder} {recurse : TokenRange → Emit}
variable {outer : List OpenApplication} {begun : Nat} {range : TokenRange}

theorem shows_groupParts
    (hrecurse : RecurseShows recorded recurse) (parts : List TokenRange)
    {out : Array GroupedToken} (houter : ∀ c ∈ outer, c.start < out.size) :
    Shows (Keeps out.size out) (Recorded.groupParts tokens (recorded outer) parts out)
      (groupParts tokens recurse parts out) := by
  induction parts generalizing out with
  | nil => exact Shows.value (.refl _ _)
  | cons part parts ih =>
      rw [Recorded.groupParts, groupParts]
      refine (shows_take _ out).bind fun comma hcomma => ?_
      have houter := hcomma.starts_lt houter
      refine (hrecurse outer part comma houter).bind fun grouped hgrouped => ?_
      have happends := hcomma.trans hgrouped
      have houter := hgrouped.starts_lt houter
      refine (ih houter).mono fun after hafter => ?_
      exact happends.keeps.trans (hafter.mono (Nat.le_of_lt happends.size_lt))

theorem shows_groupBrackets
    (hrecurse : RecurseShows recorded recurse) (opening stop : Nat) (b : Bracket)
    {out : Array GroupedToken} (houter : ∀ c ∈ outer, c.start < out.size) :
    Shows (fun r => Appends out r.2)
      (Recorded.groupBrackets tokens (recorded outer) opening stop b out)
      (groupBrackets tokens recurse opening stop b out) := by
  unfold Recorded.groupBrackets groupBrackets
  refine (Shows.any _).bind fun separated _ => ?_
  refine (shows_take _ out).bind fun first hfirst => ?_
  have hclose : ∀ inside, Keeps first.size first inside →
      Shows (fun r => Appends out r.2)
        (do
          let last ← Recorded.quiet (take tokens (separated.scope.stop - 1) inside)
          return (separated.scope.stop - 1, last))
        (do
          let last ← take tokens (separated.scope.stop - 1) inside
          return (separated.scope.stop - 1, last)) := by
    intro inside hinside
    refine (shows_take _ inside).bind fun last hlast => Shows.value ?_
    have hkeeps := hinside.trans (hlast.keeps.mono hinside.size_le)
    exact hfirst.trans ⟨hkeeps, Nat.lt_of_le_of_lt hinside.size_le hlast.size_lt⟩
  cases separated.parts with
  | nil => exact hclose first (.refl _ _)
  | cons part parts =>
      have houter := hfirst.starts_lt houter
      refine (hrecurse outer part first houter).bind fun grouped hgrouped => ?_
      have houter := hgrouped.starts_lt houter
      refine (shows_groupParts hrecurse parts houter).bind fun inside hinside => ?_
      exact hclose inside
        (hgrouped.keeps.trans (hinside.mono (Nat.le_of_lt hgrouped.size_lt)))

/-! ## Operands and operators -/

/-- An operand leaves the stack arranged, with the operators before it on top. -/
theorem shows_operand
    (tokens : Array Token) (range : TokenRange) (hrecurse : RecurseShows recorded recurse)
    (houter : ∀ c ∈ outer, c.start < begun) (steps : Nat) {cs : List OpenApplication}
    {out : Array GroupedToken} (head operandStart : Nat)
    (hstacked : Stacked begun out.size cs) (hbegun : begun ≤ out.size) :
    Shows (fun p => p.Arranged begun ∧ Keeps begun out p.out)
      (Recorded.operand tokens recorded outer range steps
        ⟨out, cs ++ [.sentinel], head, operandStart⟩)
      (operand tokens recurse range steps ⟨out, cs ++ [.sentinel], head, operandStart⟩) := by
  induction steps generalizing cs out head with
  | zero => exact .error _
  | succ steps ih =>
      rw [Recorded.operand, operand]
      dsimp only
      split
      · exact .error _
      cases tokens[head]? with
      | none => exact .error _
      | some t =>
          dsimp only
          split
          · refine (shows_take head out).bind fun taken htaken => ?_
            have hpriority : Operation.beforePriority ≠ 0 := by decide
            have hpushed : Stacked begun taken.size
                (⟨.before, Operation.beforePriority, .right, out.size, head⟩ :: cs) :=
              hstacked.push hpriority hbegun (Nat.le_refl _) htaken.size_lt fun _ _ => .inl rfl
            have hbegun' := Nat.le_trans hbegun (Nat.le_of_lt htaken.size_lt)
            refine (ih (head + 1) hpushed hbegun').mono fun p hp => ⟨hp.1, ?_⟩
            exact (htaken.keeps.mono hbegun).trans hp.2
          cases t.kind.opens with
          | some b =>
              refine (Shows.any _).bind fun _ _ => ?_
              rw [waiting_append_sentinel]
              have hpending := hstacked.start_lt_of_mem_append houter hbegun
              refine (shows_groupBrackets hrecurse head range.stop b hpending).bind fun r hr => ?_
              exact Shows.value
                ⟨Progress.arranged_mk _ _ hstacked hbegun hr.size_lt, hr.keeps.mono hbegun⟩
          | none =>
              dsimp only
              split
              · refine (shows_take head out).bind fun taken htaken => ?_
                have harranged :=
                  Progress.arranged_mk cs (head + 1) hstacked hbegun htaken.size_lt
                exact Shows.value ⟨harranged, htaken.keeps.mono hbegun⟩
              split
              · exact .error _
              · exact .error _

/-- An application that an operation does not close is outranked by that operation. -/
theorem outranks_of_closedBy
    {op : Operation} {index : Nat} {c : OpenApplication}
    (h : closedBy tokens op index c = .ok false) (start operator : Nat) :
    Outranks (.ofOperation op start operator) c := by
  unfold closedBy at h
  split at h
  · cases h
  · rename_i hclash
    simp only [Except.ok.injEq, Bool.or_eq_false_iff, decide_eq_false_iff_not,
      Bool.and_eq_false_iff, beq_eq_false_iff_ne] at h
    obtain ⟨hnot, hleft⟩ := h
    by_cases heq : c.priority = op.priority
    · refine .inr (.inr ⟨heq.symm, ?_⟩)
      cases hassociativity : op.associativity with
      | left => exact absurd hassociativity (hleft.resolve_left (not_not.mpr heq))
      | right => exact hassociativity
      | nonassoc => exact absurd ⟨heq, .inl hassociativity⟩ hclash
    · refine .inr (.inl ?_)
      change c.priority < op.priority
      omega

/-- What stands after an operand is put in parentheses with it, and the stack stays arranged. -/
theorem Settled.shows_parenthesize
    {closes : OpenApplication → Except ParseError Bool} {p q : Progress}
    (h : Settled begun closes p q) (houter : ∀ c ∈ outer, c.start < begun)
    {out : Array GroupedToken} (hout : Appends q.out out) (anchor head : Nat) :
    Shows (fun after => Progress.Arranged begun { q with out := after, head := head } ∧
        Keeps begun p.out after)
      (Recorded.parenthesize tokens (waiting q.stack ++ outer) q.operandStart anchor out)
      (parenthesize tokens q.operandStart anchor out) := by
  have harranged := h.arranged
  have hpending := harranged.start_lt_operandStart houter
  have hoperand := harranged.operandStart_lt
  refine (Grouping.shows_parenthesize anchor hpending (Nat.lt_trans hoperand hout.size_lt)).mono
    fun after hafter => ⟨harranged.longer ?_ head, ?_⟩
  · exact Nat.le_of_lt (Nat.lt_trans hout.size_lt hafter.2)
  · have hkeeps := (hout.keeps.mono (Nat.le_of_lt hoperand)).trans hafter.1
    exact h.keeps.trans (hkeeps.mono harranged.begun_le)

/-- An operation that closed what it could is opened, and its right operand is read. -/
theorem Settled.shows_operand
    {operation : Operation} {index : Nat} {p q : Progress}
    (h : Settled begun (closedBy tokens operation index) p q)
    (hrecurse : RecurseShows recorded recurse) (houter : ∀ c ∈ outer, c.start < begun)
    {taken : Array GroupedToken} (htaken : Appends q.out taken) (steps : Nat) :
    Shows (fun next => next.Arranged begun ∧ Keeps begun p.out next.out)
      (Recorded.operand tokens recorded outer range steps
        ⟨taken, .ofOperation operation q.operandStart q.head :: q.stack, q.head + 1,
          q.operandStart⟩)
      (operand tokens recurse range steps
        ⟨taken, .ofOperation operation q.operandStart q.head :: q.stack, q.head + 1,
          q.operandStart⟩) := by
  have harranged := h.arranged
  have hle := harranged.begun_le
  have hoperand := harranged.operandStart_lt
  have hsize := htaken.size_lt
  have hpushed : Stacked begun taken.size
      (.ofOperation operation q.operandStart q.head :: waiting q.stack) :=
    harranged.stacked.push operation.priority_ne_zero hle (Nat.le_refl _)
      (Nat.lt_trans hoperand hsize) fun top htop => outranks_of_closedBy (h.stays top htop) _ _
  have hread := Grouping.shows_operand tokens range hrecurse houter steps (q.head + 1)
    q.operandStart hpushed (by omega)
  rw [List.cons_append, ← stack_eq_of_bottom harranged.bottom] at hread
  refine hread.mono fun next hnext => ⟨hnext.1, ?_⟩
  exact (h.keeps.trans (htaken.keeps.mono (by omega))).trans hnext.2

/-- Every turn of the loop finds the stack arranged. -/
theorem shows_operators
    (hrecurse : RecurseShows recorded recurse) (houter : ∀ c ∈ outer, c.start < begun)
    (steps : Nat) {p : Progress} (h : p.Arranged begun) :
    Shows (Keeps begun p.out) (Recorded.operators tokens recorded outer begun range steps p)
      (operators tokens recurse range steps p) := by
  induction steps generalizing p with
  | zero => exact Shows.note h (h.shows_finish houter)
  | succ steps ih =>
      rw [Recorded.operators, operators]
      refine Shows.note h ?_
      split
      · exact h.shows_finish houter
      cases tokens[p.head]? with
      | none => exact .error _
      | some t =>
          dsimp only
          cases t.kind.opens with
          | some b =>
              refine (h.shows_settled houter).bind fun q hq => ?_
              have hpending : ∀ c ∈ waiting q.stack ++ outer, c.start < q.out.size := fun c hc =>
                Nat.lt_trans (hq.arranged.start_lt_operandStart houter c hc)
                  hq.arranged.operandStart_lt
              refine (shows_groupBrackets hrecurse q.head range.stop b hpending).bind
                fun r hr => ?_
              refine (hq.shows_parenthesize houter hr r.1 (r.1 + 1)).bind fun after hafter => ?_
              exact (ih hafter.1).mono fun last hlast => hafter.2.trans hlast
          | none =>
              cases t.kind.operator? with
              | none =>
                  dsimp only
                  split
                  · exact .error _
                  · exact .error _
              | some op =>
                  dsimp only
                  cases op.after with
                  | some _ =>
                      refine (h.shows_settled houter).bind fun q hq => ?_
                      refine (shows_take q.head q.out).bind fun taken htaken => ?_
                      refine (hq.shows_parenthesize houter htaken q.head (q.head + 1)).bind
                        fun after hafter => ?_
                      exact (ih hafter.1).mono fun last hlast => hafter.2.trans hlast
                  | none =>
                      cases op.between with
                      | none => exact .error _
                      | some operation =>
                          refine (h.shows_settled houter).bind fun q hq => ?_
                          refine (shows_take q.head q.out).bind fun taken htaken => ?_
                          refine (hq.shows_operand hrecurse houter htaken range.length).bind
                            fun next hnext => ?_
                          exact (ih hnext.1).mono fun last hlast => hnext.2.trans hlast

/-! ## Whole expressions -/

theorem recurseShows_expressionWith
    (hrecurse : RecurseShows recorded recurse) (limit depth : Nat) :
    RecurseShows (Recorded.expressionWith tokens limit recorded depth)
      (expressionWith tokens limit recurse depth) := by
  intro outer range out houter
  unfold Recorded.expressionWith expressionWith
  split
  · exact .error _
  split
  · exact .error _
  · have hread := shows_operand tokens range hrecurse houter range.length range.start out.size
      (.nil out.size out.size) (Nat.le_refl _)
    refine hread.bind fun p hp => ?_
    refine (shows_operators hrecurse houter range.length hp.1).mono fun after hafter => ?_
    have hstart := hp.1.begun_le
    have hlt := hp.1.operandStart_lt
    have hlonger := hafter.size_le
    exact ⟨hp.2.trans hafter, by omega⟩

end Runs

theorem recurseShows_expression
    (tokens : Array Token) (limit fuel depth : Nat) :
    RecurseShows (Recorded.expression tokens limit fuel depth)
      (expression tokens limit fuel depth) := by
  induction fuel generalizing depth with
  | zero => exact fun _ _ _ _ => .error _
  | succ fuel ih => exact recurseShows_expressionWith (ih (depth + 1)) limit depth

/-- Every run of the grouping, within expressions of which some applications are open, has the
record of a run in which the stack is arranged at every turn and parentheses move no token at which
a waiting application starts. -/
theorem result_eq_and_holds_of_recorded
    (tokens : Array Token) (limit fuel depth : Nat) (outer : List OpenApplication)
    (range : TokenRange) (out : Array GroupedToken) (houter : ∀ c ∈ outer, c.start < out.size) :
    (Recorded.expression tokens limit fuel depth outer range out).result =
        expression tokens limit fuel depth range out ∧
      ∀ event ∈ (Recorded.expression tokens limit fuel depth outer range out).events,
        event.Holds := by
  have hshows := recurseShows_expression tokens limit fuel depth outer range out houter
  exact ⟨hshows.result_eq, hshows.holds⟩

/-- The tokens of `-[b*c++]`. -/
def sampleList : Array Token :=
  #[⟨.operator .minus, "-", ⟨0, 1⟩, 1, 1, 1⟩, ⟨.punctuation .lbracket, "[", ⟨1, 2⟩, 1, 2, 1⟩,
    ⟨.identifier, "b", ⟨2, 3⟩, 1, 3, 1⟩, ⟨.operator .star, "*", ⟨3, 4⟩, 1, 4, 1⟩,
    ⟨.identifier, "c", ⟨4, 5⟩, 1, 5, 1⟩, ⟨.operator .plusPlus, "++", ⟨5, 7⟩, 1, 6, 2⟩,
    ⟨.punctuation .rbracket, "]", ⟨7, 8⟩, 1, 8, 1⟩]

/-- The part `b*c++` is grouped while the operation before the list waits: there are three turns,
and parentheses are inserted twice. -/
theorem result_eq_and_holds_of_recorded_sample :
    let outer : List OpenApplication := [⟨.before, Operation.beforePriority, .right, 0, 0⟩]
    let out : Array GroupedToken := sampleList.mapIdx (fun i t => ⟨t, some i⟩) |>.extract 0 2
    let run := Recorded.expression sampleList 4 2 1 outer ⟨2, 6⟩ out
    (∀ c ∈ outer, c.start < out.size) ∧ run.events.length = 5 ∧
      run.result = expression sampleList 4 2 1 ⟨2, 6⟩ out ∧ ∀ event ∈ run.events, event.Holds := by
  intro outer out run
  have houter : ∀ c ∈ outer, c.start < out.size := by decide
  exact ⟨houter, by decide +kernel,
    result_eq_and_holds_of_recorded sampleList 4 2 1 outer ⟨2, 6⟩ out houter⟩

end ExprFront.Grouping
