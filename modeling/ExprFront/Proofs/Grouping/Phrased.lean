import ExprFront.Proofs.Grouping.Steps

/-!
# Everything that is grouped is a phrase

Whenever grouping succeeds, the tokens spell an ordered phrase without empty
grouping parentheses and the result is that phrase, grouped. The invariant of a run is `Ground.Stands`: the frames and
the operand that was read last are spelled one after the other, every frame fits
into the one around it, and the operand into the innermost. Closing a frame keeps
the invariant; what follows an operand closes just the frames that end before it.
-/

namespace ExprFront

open Grouping

/-- A bound computation succeeds if both of its parts do. -/
theorem bind_eq_ok_iff
    {ε α β : Type} {x : Except ε α} {f : α → Except ε β} {b : β} :
    (x >>= f) = .ok b ↔ ∃ a, x = .ok a ∧ f a = .ok b := by
  cases x <;> simp [bind, Except.bind]

namespace Grouping

variable {tokens : Array Token} {recurse : TokenRange → Emit}

/-- Ranges that are grouped are phrases. -/
def GroupsPhrases (tokens : Array Token) (recurse : TokenRange → Emit) : Prop :=
  ∀ range entries out, recurse range (List.toArray entries) = .ok out →
    ∃ p : Phrase, p.Covers tokens range ∧ p.Ordered ∧ p.Filled ∧
      out = (entries ++ p.grouped tokens range.start).toArray

/-! ## Bracket groups -/

/-- An input token that is taken is copied. -/
theorem eq_of_take
    {index : Nat} {entries : List GroupedToken} {out : Array GroupedToken}
    (h : take tokens index entries.toArray = .ok out) :
    out = (entries ++ copy tokens index).toArray := by
  unfold take at h
  split at h
  · rename_i t ht
    cases h
    simp [copy_of_getElem? ht]
  · cases h

/-- The tokens of later parts, each with the comma before its range. -/
theorem groupedLater_eq
    (tokens : Array Token) (parts : List Phrase) (start : Nat) :
    Phrase.groupedLater tokens parts start =
      (List.zipWith (fun p range => copy tokens (range.start - 1) ++ p.grouped tokens range.start)
        parts (Phrase.partRanges parts (start + 1))).flatten := by
  induction parts generalizing start with
  | nil => rfl
  | cons p ps ih => simp [Phrase.groupedLater, Phrase.partRanges, ih]

/-- Parts that are grouped one after the other are phrases. -/
theorem exists_parts_of_groupParts
    (hrecurse : GroupsPhrases tokens recurse) {ranges : List TokenRange}
    {entries : List GroupedToken} {out : Array GroupedToken}
    (h : groupParts tokens recurse ranges entries.toArray = .ok out) :
    ∃ parts, List.Forall₂ (Phrase.Covers tokens) parts ranges ∧
      (∀ p ∈ parts, p.Ordered ∧ p.Filled) ∧ out = (entries ++
        (List.zipWith (fun p range => copy tokens (range.start - 1) ++
          p.grouped tokens range.start) parts ranges).flatten).toArray := by
  induction ranges generalizing entries with
  | nil =>
      cases h
      exact ⟨[], .nil, by simp, by simp⟩
  | cons range ranges ih =>
      rw [groupParts, bind_eq_ok_iff] at h
      obtain ⟨out₁, htake, h⟩ := h
      obtain rfl := eq_of_take htake
      rw [bind_eq_ok_iff] at h
      obtain ⟨out₂, hpart, h⟩ := h
      obtain ⟨p, hp, hordered, hfilled, rfl⟩ := hrecurse _ _ _ hpart
      obtain ⟨parts, hparts, hall, rfl⟩ := ih h
      refine ⟨p :: parts, .cons hp hparts, by simpa using ⟨⟨hordered, hfilled⟩, hall⟩, ?_⟩
      simp

/-- The parts of a bracket group that is grouped are phrases: the first one stands without a comma,
the later ones with theirs. -/
theorem exists_parts_of_groupInterior
    (hrecurse : GroupsPhrases tokens recurse) {ranges : List TokenRange}
    {entries : List GroupedToken} {out : Array GroupedToken}
    (h : groupInterior tokens recurse ranges entries.toArray = .ok out) :
    ∃ parts, List.Forall₂ (Phrase.Covers tokens) parts ranges ∧
      (∀ p ∈ parts, p.Ordered ∧ p.Filled) ∧ ∀ start, ranges = Phrase.partRanges parts start →
        out = (entries ++ Phrase.groupedParts tokens parts start).toArray := by
  cases ranges with
  | nil =>
      cases h
      exact ⟨[], .nil, by simp, by simp [Phrase.groupedParts]⟩
  | cons range ranges =>
      rw [groupInterior, bind_eq_ok_iff] at h
      obtain ⟨out₁, hfirst, hlater⟩ := h
      obtain ⟨p, hp, hordered, hfilled, rfl⟩ := hrecurse _ _ _ hfirst
      obtain ⟨ps, hps, hall, rfl⟩ := exists_parts_of_groupParts hrecurse hlater
      refine ⟨p :: ps, .cons hp hps, by simpa using ⟨⟨hordered, hfilled⟩, hall⟩, ?_⟩
      intro start hstart
      simp only [Phrase.partRanges, List.cons.injEq] at hstart
      obtain ⟨rfl, rfl⟩ := hstart
      simp [Phrase.groupedParts, groupedLater_eq]

/-- A bracket group that is grouped is spelled. -/
theorem exists_group_of_groupBrackets
    (hrecurse : GroupsPhrases tokens recurse) {opening stop closing : Nat} {b : Bracket}
    {entries : List GroupedToken} {out : Array GroupedToken}
    (h : groupBrackets tokens recurse opening stop b entries.toArray = .ok (closing, out)) :
    ∃ parts, (Phrase.group b parts).Spells tokens opening ∧
      opening + (Phrase.group b parts).width ≤ stop ∧ (∀ p ∈ parts, p.Ordered ∧ p.Filled) ∧
      closing = opening + (Phrase.group b parts).width - 1 ∧
      out = (entries ++ (Phrase.group b parts).grouped tokens opening).toArray := by
  cases hresolve : Separated.resolve tokens ⟨opening, stop⟩ b .comma with
  | error e => simp [groupBrackets, hresolve, liftScope, bind, Except.bind] at h
  | ok separated =>
      rw [groupBrackets_of_resolve hresolve, bind_eq_ok_iff] at h
      obtain ⟨out₁, htake, h⟩ := h
      obtain rfl := eq_of_take htake
      rw [bind_eq_ok_iff] at h
      obtain ⟨out₂, hparts, h⟩ := h
      rw [bind_eq_ok_iff] at h
      obtain ⟨out₃, hclose, h⟩ := h
      obtain ⟨parts, hcovers, hall, hout⟩ := exists_parts_of_groupInterior hrecurse hparts
      obtain ⟨hspells, hstop, rfl⟩ := Phrase.spells_group_of_resolve hresolve hcovers
      simp only [Except.ok.injEq, Prod.mk.injEq] at h
      obtain ⟨rfl, rfl⟩ := h
      obtain rfl := hout _ rfl
      obtain rfl := eq_of_take hclose
      refine ⟨parts, hspells, hstop, hall, rfl, ?_⟩
      have hclosing : opening + (Phrase.group b parts).width - 1 =
          opening + 1 + Phrase.partsWidth parts := by
        simp only [Phrase.width]
        omega
      simp [Phrase.grouped, hclosing]

/-- Parentheses in the place of an operand that are let pass are not empty. -/
theorem ne_nil_of_requireFilled
    {b : Bracket} {parts : List Phrase} {opening stop : Nat}
    (hspells : (Phrase.group b parts).Spells tokens opening)
    (hstop : opening + (Phrase.group b parts).width ≤ stop)
    (h : requireFilled tokens opening stop b = .ok ()) : b = .paren → parts ≠ [] := by
  rintro rfl rfl
  have hmatching := Phrase.matching_of_spells hspells hstop
  have hempty : (⟨opening, opening + (Phrase.group .paren []).width⟩ :
      Scope).interior.isEmpty = true := by
    simp [Scope.interior, TokenRange.isEmpty, Phrase.width, Phrase.partsWidth]
  simp [requireFilled, hmatching, liftScope, bind, Except.bind, hempty] at h

end Grouping

/-! ## Misplaced tokens -/

namespace Grouping

variable {tokens : Array Token} {recurse : TokenRange → Emit} {range : TokenRange}

/-- No other token starts an operand. -/
theorem operand_ne_ok
    {steps : Nat} {progress result : Progress} {t : Token}
    (ht : tokens[progress.head]? = some t) (hbefore : t.kind.before = none)
    (hopens : t.kind.opens = none) (hoperand : t.kind.isOperand = false) :
    operand tokens recurse range (steps + 1) progress ≠ .ok result := by
  intro h
  rw [operand] at h
  split at h
  · cases h
  · simp only [ht, hbefore, hopens, hoperand, Option.isSome_none, Bool.false_eq_true,
      if_false] at h
    split at h <;> cases h

/-- No other token follows an operand. -/
theorem operators_ne_ok
    {steps : Nat} {progress : Progress} {out : Array GroupedToken} {t : Token}
    (hstop : progress.head < range.stop) (ht : tokens[progress.head]? = some t)
    (hopens : t.kind.opens = none) (hafter : t.kind.after = none)
    (hbetween : t.kind.between = none) :
    operators tokens recurse range (steps + 1) progress ≠ .ok out := by
  intro h
  rw [operators, if_neg (by omega)] at h
  simp only [ht, hopens] at h
  cases hoperator : t.kind.operator? with
  | none =>
      simp only [hoperator] at h
      split at h <;> cases h
  | some o =>
      have hoAfter : o.after = none := by simpa [TokenKind.after, hoperator] using hafter
      have hoBetween : o.between = none := by simpa [TokenKind.between, hoperator] using hbetween
      simp only [hoperator, hoAfter, hoBetween] at h
      cases h

end Grouping

/-! ## The invariant -/

namespace Frame

/-- The left operand of the frame obeys the rules. -/
def Ordered : Frame → Prop
  | before _ => True
  | between left op => op.entry.fixity = .between ∧ left.LeftOf op ∧ left.Ordered

/-- The left operand of the frame has no empty grouping parentheses. -/
def Filled : Frame → Prop
  | before _ => True
  | between left _ => left.Filled

/-- Everything on the left edge of the frame binds at least as tightly as a priority. -/
def Fits (least : Nat) : Frame → Prop
  | before _ => True
  | between left op => least ≤ op.priority ∧ left.Fits least

/-- Every frame obeys the rules and fits into the one around it. -/
def Chained : List Frame → Prop
  | [] => True
  | f :: fs => f.Ordered ∧ f.Filled ∧ f.Fits (innerLeast fs) ∧ Chained fs

/-- A frame is closed over an operand that fits into it. -/
theorem ordered_close
    {f : Frame} {p : Phrase} (hf : f.Ordered) (hordered : p.Ordered) (hfits : p.Fits f.least) :
    (f.close p).Ordered := by
  cases f with
  | before op => exact ⟨hfits.followsBefore hordered, hordered⟩
  | between left op => exact ⟨hf.1, hf.2.1, hfits.rightOf, hf.2.2, hordered⟩

theorem filled_close
    {f : Frame} {p : Phrase} (hf : f.Filled) (hfilled : p.Filled) : (f.close p).Filled := by
  cases f with
  | before op => exact hfilled
  | between left op => exact ⟨hf, hfilled⟩

theorem fits_close
    {f : Frame} {p : Phrase} {least : Nat} (hf : f.Fits least) : (f.close p).Fits least := by
  cases f with
  | before op => trivial
  | between left op => exact hf

/-- Frames that what stands after an operand leaves open wait for no tighter operand. -/
theorem innerLeast_le_of_closedByGroup
    {fs : List Frame} (hchained : Chained fs)
    (hopen : ∀ f ∈ fs.head?, f.closedByGroup = .ok false) :
    innerLeast fs ≤ Operation.afterPriority := by
  cases fs with
  | nil => exact Nat.zero_le _
  | cons f fs =>
      have hle := closedByGroup_eq_false_iff.mp (hopen f rfl)
      cases f with
      | before => exact hle
      | between left op =>
          have hop : op ≠ .memberAccess := by
            rintro rfl
            have : Operation.memberAccess.priority ≤ Operation.afterPriority := hle
            exact absurd this (by decide)
          have := Operation.rightLeast_le_beforePriority hchained.1.1 hop
          exact Nat.le_trans this (by decide)

/-- Frames that an operation leaves open wait for an operand that it may belong to. -/
theorem innerLeast_le_of_closedBy
    {tokens : Array Token} {op : Operation} {index : Nat} {fs : List Frame}
    (hbetween : op.entry.fixity = .between)
    (hopen : ∀ f ∈ fs.head?, f.closedBy tokens op index = .ok false) :
    innerLeast fs ≤ op.priority := by
  cases fs with
  | nil => exact Nat.zero_le _
  | cons f fs => exact (closedBy_eq_false_iff hbetween).mp (hopen f rfl)

end Frame

namespace Ground

variable {ground : Ground} {recurse : TokenRange → Emit} {range : TokenRange}

/-- The tokens of frames are spelled one after the other. -/
def Spelled (ground : Ground) : List Frame → Prop
  | [] => True
  | f :: fs => f.Spells ground.tokens (ground.reached fs) ∧ Spelled ground fs

/-- The frames and the operand that was read last are spelled, obey the rules and fit into each
other. -/
structure Stands (ground : Ground) (fs : List Frame) (p : Phrase) : Prop where
  spelled : ground.Spelled fs
  chained : Frame.Chained fs
  spells : p.Spells ground.tokens (ground.reached fs)
  ordered : p.Ordered
  filled : p.Filled
  fits : p.Fits (Frame.innerLeast fs)

/-- Closing the innermost frame keeps the invariant. -/
theorem Stands.close
    {f : Frame} {fs : List Frame} {p : Phrase} (h : ground.Stands (f :: fs) p) :
    ground.Stands fs (f.close p) := by
  obtain ⟨⟨hf, hspelled⟩, ⟨hfOrdered, hfFilled, hfFits, hchained⟩, hspells, hordered, hfilled,
    hfits⟩ := h
  rw [reached_cons] at hspells
  exact ⟨hspelled, hchained, Frame.spells_close hf hspells,
    Frame.ordered_close hfOrdered hordered hfits, Frame.filled_close hfFilled hfilled,
    Frame.fits_close hfFits⟩

theorem Stands.foldl_close
    {closed rest : List Frame} {p : Phrase} (h : ground.Stands (closed ++ rest) p) :
    ground.Stands rest (closed.foldl (fun operand f => f.close operand) p) := by
  induction closed generalizing p with
  | nil => exact h
  | cons f fs ih => exact ih h.close

theorem Stands.le_size
    {fs : List Frame} {p : Phrase} (h : ground.Stands fs p) :
    ground.reached fs + p.width ≤ ground.tokens.size := h.spells.le_size

theorem spine_foldl_close
    {closed : List Frame} {p : Phrase} (hp : p.spine = []) :
    (closed.foldl (fun operand f => f.close operand) p).spine = closed := by
  have hspine : ∀ q : Phrase, (closed.foldl (fun operand f => f.close operand) q).spine =
      q.spine ++ closed := by
    induction closed with
    | nil => simp
    | cons f fs ih => simp [ih, Frame.spine_close]
  simp [hspine, hp]

/-! ## Operands -/

/-- An operand that is read after some frames is a bracket group or a single token, after more
frames. -/
theorem exists_stands_of_operand
    (hrecurse : GroupsPhrases ground.tokens recurse) {steps operandStart : Nat}
    {fs : List Frame} {progress : Progress} (hspelled : ground.Spelled fs)
    (hchained : Frame.Chained fs)
    (h : operand ground.tokens recurse range steps (ground.waiting fs operandStart) =
      .ok progress) :
    ∃ fs' p, progress = ground.holding fs' p ∧ ground.Stands fs' p ∧ p.spine = [] ∧
      ground.reached fs < ground.reached fs' + p.width ∧
      ground.reached fs' + p.width ≤ range.stop := by
  induction steps generalizing fs with
  | zero => simp [operand] at h
  | succ steps ih =>
      by_cases hstop : range.stop ≤ ground.reached fs
      · simp [operand, waiting, hstop] at h
      cases htoken : ground.tokens[ground.reached fs]? with
      | none => simp [operand, waiting, hstop, htoken] at h
      | some t =>
          have hkind : kindAt ground.tokens (ground.reached fs) = some t.kind :=
            kindAt_eq_some_iff.mpr ⟨t, htoken, rfl⟩
          cases hbefore : t.kind.before with
          | some op =>
              rw [operand_before (by omega) hkind hbefore] at h
              have hframe : (Frame.before op).Spells ground.tokens (ground.reached fs) := by
                simp [Frame.Spells, hkind, hbefore]
              have hmore : ground.Spelled (.before op :: fs) := ⟨hframe, hspelled⟩
              obtain ⟨fs', p, rfl, hstands, hspine, hlt, hle⟩ :=
                ih hmore ⟨trivial, trivial, trivial, hchained⟩ h
              rw [reached_cons] at hlt
              exact ⟨fs', p, rfl, hstands, hspine, by omega, hle⟩
          | none =>
              cases hleaf : NodeKind.ofToken? t.kind with
              | some kind =>
                  rw [operand_leaf (by omega) hkind hleaf] at h
                  cases h
                  refine ⟨fs, .leaf kind, rfl, ⟨hspelled, hchained, ?_, trivial, trivial, trivial⟩,
                    rfl, Nat.lt_succ_self _, ?_⟩
                  · simp [Phrase.Spells, hkind, hleaf]
                  · simp only [Phrase.width]
                    omega
              | none =>
                  cases hopens : t.kind.opens with
                  | none =>
                      have hoperand : t.kind.isOperand = false := by
                        rw [← NodeKind.ofToken?_isSome, hleaf]
                        rfl
                      exact absurd h (operand_ne_ok htoken hbefore hopens hoperand)
                  | some b =>
                      rw [TokenKind.opens_eq_some_iff.mp hopens] at hkind
                      rw [operand_group (by omega) hkind, bind_eq_ok_iff] at h
                      obtain ⟨⟨⟩, hrequire, h⟩ := h
                      rw [bind_eq_ok_iff] at h
                      obtain ⟨⟨closing, out⟩, hbrackets, h⟩ := h
                      cases h
                      obtain ⟨parts, hspells, hle, hall, rfl, rfl⟩ :=
                        exists_group_of_groupBrackets hrecurse hbrackets
                      have hpos := (Phrase.group b parts).width_pos
                      have hnonempty := ne_nil_of_requireFilled hspells hle hrequire
                      refine ⟨fs, .group b parts, ?_, ⟨hspelled, hchained, hspells,
                        Phrase.allOrdered_iff.mpr fun p hp => (hall p hp).1,
                        ⟨hnonempty, Phrase.allFilled_iff.mpr fun p hp => (hall p hp).2⟩, trivial⟩,
                        rfl, by omega, hle⟩
                      simp only [holding, Progress.mk.injEq, true_and, and_true]
                      omega

/-! ## Operators -/

/-- What stands after an operand may stand after what is left of the operand once the frames that
it closes are closed. -/
theorem Stands.precedesAfter
    {closed rest : List Frame} {p : Phrase} (h : ground.Stands (closed ++ rest) p)
    (hspine : p.spine = []) (hclosed : ∀ f ∈ closed, f.closedByGroup = .ok true) :
    (closed.foldl (fun operand f => f.close operand) p).PrecedesAfter := by
  apply Phrase.precedesAfter_of_lt_least h.foldl_close.ordered
  intro f hf
  rw [spine_foldl_close hspine] at hf
  exact Nat.lt_of_lt_of_le (Frame.closedByGroup_eq_true_iff.mp (hclosed f hf))
    f.priority_le_least

/-- An operator after an operand keeps the invariant. -/
theorem Stands.after
    {closed rest : List Frame} {p : Phrase} {k : TokenKind} {op : Operation}
    (h : ground.Stands (closed ++ rest) p) (hspine : p.spine = [])
    (hclosed : ∀ f ∈ closed, f.closedByGroup = .ok true)
    (hopen : ∀ f ∈ rest.head?, f.closedByGroup = .ok false)
    (hkind : kindAt ground.tokens (ground.reached (closed ++ rest) + p.width) = some k)
    (hafter : k.after = some op) :
    ground.Stands rest (.after (closed.foldl (fun operand f => f.close operand) p) op) := by
  have hrest := h.foldl_close
  have hleast := Frame.innerLeast_le_of_closedByGroup hrest.chained hopen
  refine ⟨hrest.spelled, hrest.chained, ⟨hrest.spells, ?_⟩,
    ⟨h.precedesAfter hspine hclosed, hrest.ordered⟩, hrest.filled, hleast, hrest.fits⟩
  rw [width_foldl_close, hkind]
  exact hafter

/-- A bracket group after an operand keeps the invariant. -/
theorem Stands.applied
    {closed rest : List Frame} {p : Phrase} {b : Bracket} {parts : List Phrase}
    (h : ground.Stands (closed ++ rest) p) (hspine : p.spine = [])
    (hclosed : ∀ f ∈ closed, f.closedByGroup = .ok true)
    (hopen : ∀ f ∈ rest.head?, f.closedByGroup = .ok false)
    (hgroup : (Phrase.group b parts).Spells ground.tokens
      (ground.reached (closed ++ rest) + p.width))
    (hall : ∀ q ∈ parts, q.Ordered ∧ q.Filled) :
    ground.Stands rest
      (.applied (closed.foldl (fun operand f => f.close operand) p) b parts) := by
  have hrest := h.foldl_close
  have hleast := Frame.innerLeast_le_of_closedByGroup hrest.chained hopen
  refine ⟨hrest.spelled, hrest.chained, ?_,
    ⟨h.precedesAfter hspine hclosed, hrest.ordered,
      Phrase.allOrdered_iff.mpr fun q hq => (hall q hq).1⟩,
    ⟨hrest.filled, Phrase.allFilled_iff.mpr fun q hq => (hall q hq).2⟩, hleast, hrest.fits⟩
  rw [Phrase.spells_applied_iff, width_foldl_close]
  exact ⟨hrest.spells, hgroup⟩

/-- An operation between operands opens a frame that fits into what is left open. -/
theorem Stands.between
    {closed rest : List Frame} {p : Phrase} {k : TokenKind} {op : Operation} {index : Nat}
    (h : ground.Stands (closed ++ rest) p) (hspine : p.spine = [])
    (hclosed : ∀ f ∈ closed, f.closedBy ground.tokens op index = .ok true)
    (hopen : ∀ f ∈ rest.head?, f.closedBy ground.tokens op index = .ok false)
    (hkind : kindAt ground.tokens (ground.reached (closed ++ rest) + p.width) = some k)
    (hbetween : k.between = some op) :
    ground.Spelled (.between (closed.foldl (fun operand f => f.close operand) p) op :: rest) ∧
      Frame.Chained (.between (closed.foldl (fun operand f => f.close operand) p) op :: rest) := by
  have hrest := h.foldl_close
  have hfixity := (TokenKind.entry_of_between hbetween).1
  have hleft : (closed.foldl (fun operand f => f.close operand) p).LeftOf op := by
    apply Phrase.leftOf_of_closedBy
    intro f hf
    rw [spine_foldl_close hspine] at hf
    exact Frame.closedBy_eq_true_iff.mp (hclosed f hf)
  refine ⟨⟨⟨hrest.spells, ?_⟩, hrest.spelled⟩, ⟨hfixity, hleft, hrest.ordered⟩, hrest.filled,
    ⟨Frame.innerLeast_le_of_closedBy hfixity hopen, hrest.fits⟩, hrest.chained⟩
  rw [width_foldl_close, hkind]
  exact hbetween

/-- At the end of the range all of it is a phrase. -/
theorem Stands.exists_phrase_of_finish
    {fs : List Frame} {p : Phrase} {out : Array GroupedToken} (h : ground.Stands fs p)
    (hstop : ground.reached fs + p.width = range.stop)
    (hfinish : (ground.holding fs p).finish ground.tokens = .ok out) :
    ∃ q : Phrase, q.Covers ground.tokens ⟨ground.first, range.stop⟩ ∧ q.Ordered ∧ q.Filled ∧
      out = (ground.base ++ q.grouped ground.tokens ground.first).toArray := by
  have hsize := h.le_size
  rw [finish_holding fs p (by omega)] at hfinish
  cases hfinish
  have hwidth := ground.width_foldl_close fs [] p
  rw [← List.append_nil fs] at h
  have hwhole := h.foldl_close
  rw [List.append_nil, hstop] at hwidth
  exact ⟨_, ⟨hwhole.spells, hwidth⟩, hwhole.ordered, hwhole.filled, rfl⟩

/-- The run goes on with a later operand for which the invariant holds. -/
def GoesOn (ground : Ground) (recurse : TokenRange → Emit) (range : TokenRange) (reached : Nat)
    (steps : Nat) (out : Array GroupedToken) : Prop :=
  ∃ fs p, ground.Stands fs p ∧ p.spine = [] ∧
    reached < ground.reached fs + p.width ∧ ground.reached fs + p.width ≤ range.stop ∧
    operators ground.tokens recurse range steps (ground.holding fs p) = .ok out

theorem goesOn_of_opens
    (hrecurse : GroupsPhrases ground.tokens recurse) {steps : Nat} {fs : List Frame} {p : Phrase}
    {b : Bracket} {out : Array GroupedToken} (hstands : ground.Stands fs p) (hspine : p.spine = [])
    (hlt : ground.reached fs + p.width < range.stop)
    (hkind : kindAt ground.tokens (ground.reached fs + p.width) = some (.punctuation b.opening))
    (h : operators ground.tokens recurse range (steps + 1) (ground.holding fs p) = .ok out) :
    ground.GoesOn recurse range (ground.reached fs + p.width) steps out := by
  have hrun := h
  rw [operators_group hlt hkind] at h
  cases hsettled : settled Frame.closedByGroup fs p with
  | error e => simp [hsettled] at h
  | ok result =>
      obtain ⟨rest, q⟩ := result
      simp only [hsettled] at h
      rw [bind_eq_ok_iff] at h
      obtain ⟨⟨closing, after⟩, hbrackets, -⟩ := h
      obtain ⟨parts, hspells, hle, hall, rfl, rfl⟩ :=
        exists_group_of_groupBrackets hrecurse hbrackets
      rw [operators_applied hlt hspells hsettled hbrackets] at hrun
      obtain ⟨closed, rfl, rfl, hclosed, hopen⟩ := exists_of_settled hsettled
      have hwidth := ground.width_foldl_close closed rest p
      have hpos := (Phrase.group b parts).width_pos
      refine ⟨_, _, hstands.applied hspine hclosed hopen hspells hall, rfl, ?_, ?_, hrun⟩
      · rw [Phrase.width_applied]
        omega
      · rw [Phrase.width_applied]
        omega

theorem goesOn_of_after
    {steps : Nat} {fs : List Frame} {p : Phrase} {k : TokenKind} {op : Operation}
    {out : Array GroupedToken} (hstands : ground.Stands fs p) (hspine : p.spine = [])
    (hlt : ground.reached fs + p.width < range.stop)
    (hkind : kindAt ground.tokens (ground.reached fs + p.width) = some k)
    (hafter : k.after = some op)
    (h : operators ground.tokens recurse range (steps + 1) (ground.holding fs p) = .ok out) :
    ground.GoesOn recurse range (ground.reached fs + p.width) steps out := by
  rw [operators_after hlt hkind hafter] at h
  cases hsettled : settled Frame.closedByGroup fs p with
  | error e => simp [hsettled] at h
  | ok result =>
      obtain ⟨rest, q⟩ := result
      simp only [hsettled] at h
      obtain ⟨closed, rfl, rfl, hclosed, hopen⟩ := exists_of_settled hsettled
      have hwidth := ground.width_foldl_close closed rest p
      refine ⟨_, _, hstands.after hspine hclosed hopen hkind hafter, rfl, ?_, ?_, h⟩
      · simp only [Phrase.width]
        omega
      · simp only [Phrase.width]
        omega

theorem goesOn_of_between
    (hrecurse : GroupsPhrases ground.tokens recurse) {steps : Nat} {fs : List Frame} {p : Phrase}
    {k : TokenKind} {op : Operation} {out : Array GroupedToken} (hstands : ground.Stands fs p)
    (hspine : p.spine = []) (hlt : ground.reached fs + p.width < range.stop)
    (hkind : kindAt ground.tokens (ground.reached fs + p.width) = some k)
    (hbetween : k.between = some op)
    (h : operators ground.tokens recurse range (steps + 1) (ground.holding fs p) = .ok out) :
    ground.GoesOn recurse range (ground.reached fs + p.width) steps out := by
  rw [operators_between hlt hkind hbetween] at h
  cases hsettled : settled (Frame.closedBy ground.tokens op (ground.reached fs + p.width)) fs p with
  | error e => simp [hsettled] at h
  | ok result =>
      obtain ⟨rest, q⟩ := result
      simp only [hsettled] at h
      rw [bind_eq_ok_iff] at h
      obtain ⟨progress, hoperand, h⟩ := h
      obtain ⟨closed, rfl, rfl, hclosed, hopen⟩ := exists_of_settled hsettled
      obtain ⟨hspelled, hchained⟩ := hstands.between hspine hclosed hopen hkind hbetween
      obtain ⟨fs', q, rfl, hnext, hqSpine, hqStart, hqStop⟩ :=
        exists_stands_of_operand hrecurse hspelled hchained hoperand
      have hwidth := ground.width_foldl_close closed rest p
      rw [reached_cons, Frame.width] at hqStart
      exact ⟨fs', q, hnext, hqSpine, by omega, hqStop, h⟩

/-- A step of the operators leads from one operand to a later one. -/
theorem goesOn_of_operators
    (hrecurse : GroupsPhrases ground.tokens recurse) {steps : Nat} {fs : List Frame} {p : Phrase}
    {out : Array GroupedToken} (hstands : ground.Stands fs p) (hspine : p.spine = [])
    (hlt : ground.reached fs + p.width < range.stop)
    (h : operators ground.tokens recurse range (steps + 1) (ground.holding fs p) = .ok out) :
    ground.GoesOn recurse range (ground.reached fs + p.width) steps out := by
  cases htoken : ground.tokens[ground.reached fs + p.width]? with
  | none => simp [operators, head_holding, Nat.not_le.mpr hlt, htoken] at h
  | some t =>
      have hkind : kindAt ground.tokens (ground.reached fs + p.width) = some t.kind :=
        kindAt_eq_some_iff.mpr ⟨t, htoken, rfl⟩
      cases hopens : t.kind.opens with
      | some b =>
          rw [TokenKind.opens_eq_some_iff.mp hopens] at hkind
          exact goesOn_of_opens hrecurse hstands hspine hlt hkind h
      | none =>
          cases hafter : t.kind.after with
          | some op => exact goesOn_of_after hstands hspine hlt hkind hafter h
          | none =>
              cases hbetween : t.kind.between with
              | some op => exact goesOn_of_between hrecurse hstands hspine hlt hkind hbetween h
              | none => exact absurd h (operators_ne_ok hlt htoken hopens hafter hbetween)

/-- A run of operators from an operand on ends in a phrase that fills the range. -/
theorem exists_phrase_of_operators
    (hrecurse : GroupsPhrases ground.tokens recurse) {steps : Nat} {fs : List Frame} {p : Phrase}
    {out : Array GroupedToken} (hstands : ground.Stands fs p) (hspine : p.spine = [])
    (hstop : ground.reached fs + p.width ≤ range.stop)
    (hsteps : range.stop - (ground.reached fs + p.width) ≤ steps)
    (h : operators ground.tokens recurse range steps (ground.holding fs p) = .ok out) :
    ∃ q : Phrase, q.Covers ground.tokens ⟨ground.first, range.stop⟩ ∧ q.Ordered ∧ q.Filled ∧
      out = (ground.base ++ q.grouped ground.tokens ground.first).toArray := by
  induction steps generalizing fs p with
  | zero => exact hstands.exists_phrase_of_finish (by omega) h
  | succ steps ih =>
      by_cases hle : range.stop ≤ ground.reached fs + p.width
      · rw [operators_of_le hle] at h
        exact hstands.exists_phrase_of_finish (by omega) h
      · obtain ⟨fs', q, hnext, hqSpine, hqStart, hqStop, hrun⟩ :=
          goesOn_of_operators hrecurse hstands hspine (by omega) h
        exact ih hnext hqSpine hqStop (by omega) hrun

end Ground

namespace Grouping

variable {tokens : Array Token}

/-! ## All levels -/

/-- Whatever is grouped is a phrase. -/
theorem groupsPhrases_expression
    (tokens : Array Token) (limit fuel depth : Nat) :
    GroupsPhrases tokens (expression tokens limit fuel depth) := by
  induction fuel generalizing depth with
  | zero =>
      intro range entries out h
      simp [expression] at h
  | succ fuel ih =>
      intro range entries out h
      rw [expression, expressionWith] at h
      split at h
      · cases h
      · split at h
        · cases h
        · rw [bind_eq_ok_iff] at h
          obtain ⟨progress, hoperand, h⟩ := h
          let ground : Ground := ⟨tokens, entries, range.start⟩
          have hwaiting : (⟨entries.toArray, [.sentinel], range.start, entries.toArray.size⟩ :
              Progress) = ground.waiting [] entries.toArray.size := rfl
          rw [hwaiting] at hoperand
          have hspelled : ground.Spelled [] := trivial
          obtain ⟨fs, p, rfl, hstands, hspine, hlt, hstop⟩ :=
            Ground.exists_stands_of_operand (ih (depth + 1)) hspelled trivial hoperand
          have hfirst : range.start < ground.reached fs + p.width := hlt
          refine Ground.exists_phrase_of_operators (ih (depth + 1)) hstands hspine hstop ?_ h
          simp only [TokenRange.length]
          omega

/-- A grouped expression is an ordered phrase that covers the range and has no empty grouping
parentheses. -/
theorem exists_filled_of_groupTokens
    {range : TokenRange} {limit : Nat} {g : Grouped}
    (h : groupTokens tokens range limit = .ok g) :
    ∃ p : Phrase, p.Covers tokens range ∧ p.Ordered ∧ p.Filled ∧
      g.entries = (p.grouped tokens range.start).toArray := by
  unfold groupTokens at h
  split at h
  · rename_i entries hentries
    cases h
    exact groupsPhrases_expression tokens limit _ 0 range [] entries hentries
  · cases h

/-- A grouped expression is a phrase that covers the range. -/
theorem exists_covers_of_groupTokens
    {range : TokenRange} {limit : Nat} {g : Grouped}
    (h : groupTokens tokens range limit = .ok g) :
    ∃ p : Phrase, p.Covers tokens range ∧ p.Ordered ∧
      g.entries = (p.grouped tokens range.start).toArray := by
  obtain ⟨p, hcovers, hordered, -, hentries⟩ := exists_filled_of_groupTokens h
  exact ⟨p, hcovers, hordered, hentries⟩

end Grouping

end ExprFront
