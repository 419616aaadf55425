import ExprFront.Proofs.Grouping.Steps

/-!
# What grouping makes of a phrase

An ordered phrase whose grouping parentheses hold single parts is grouped if its
brackets do not nest too deep, and otherwise the nesting is what grouping
complains about. From the frames that wait for the phrase, grouping runs to those
frames with the spine of the phrase on top, holding the tip of the phrase. The
induction is on the phrase, for operands and ranges at once.
-/

namespace ExprFront

open Grouping

namespace Phrase

mutual

/-- How deep the brackets of the phrase nest. -/
def depth : Phrase → Nat
  | leaf _ => 0
  | group _ parts => partsDepth parts
  | before _ operand => operand.depth
  | after operand _ => operand.depth
  | applied callee _ parts => max callee.depth (partsDepth parts)
  | between left _ right => max left.depth right.depth

/-- How deep a bracket group with the given parts nests. -/
def partsDepth : List Phrase → Nat
  | [] => 0
  | p :: ps => max (p.depth + 1) (partsDepth ps)

end

theorem partsDepth_le_iff
    {parts : List Phrase} {n : Nat} : partsDepth parts ≤ n ↔ ∀ p ∈ parts, p.depth + 1 ≤ n := by
  induction parts with
  | nil => simp [partsDepth]
  | cons p ps ih => rw [List.forall_mem_cons, ← ih, partsDepth, Nat.max_le]

/-- Every level of brackets takes a token of its own. -/
theorem depth_lt_width
    (p : Phrase) : p.depth < p.width := by
  have hparts : ∀ parts : List Phrase, (∀ p ∈ parts, p.depth < p.width) →
      partsDepth parts ≤ partsWidth parts := by
    intro parts ih
    rw [partsDepth_le_iff]
    intro p hp
    exact Nat.le_trans (ih p hp) (width_le_partsWidth_of_mem hp)
  induction p with
  | leaf => simp [depth, width]
  | group b parts ih =>
      have := hparts parts ih
      simp only [depth, width]
      omega
  | before op operand ih =>
      simp only [depth, width]
      omega
  | after operand op ih =>
      simp only [depth, width]
      omega
  | applied callee b parts ihCallee ihParts =>
      have := hparts parts ihParts
      simp only [depth, width]
      omega
  | between left op right ihLeft ihRight =>
      simp only [depth, width]
      omega

end Phrase

namespace Grouping

variable {tokens : Array Token} {limit : Nat}

/-! ## Outcomes -/

/-- The computation yields a value if a condition holds, and finds the nesting too deep
otherwise. -/
def Emits {α : Type} (tokens : Array Token) (limit : Nat) (good : Prop)
    (result : Except ParseError α) (value : α) : Prop :=
  (good → result = .ok value) ∧
    (¬ good → ∃ index, result = .error (.tooDeepAt tokens limit index))

theorem Emits.of_ok
    {α : Type} {result : Except ParseError α} {value : α} (h : result = .ok value) :
    Emits tokens limit True result value :=
  ⟨fun _ => h, fun hnot => absurd trivial hnot⟩

theorem Emits.of_iff
    {α : Type} {good other : Prop} {result : Except ParseError α} {value : α}
    (h : Emits tokens limit good result value) (hiff : other ↔ good) :
    Emits tokens limit other result value := by
  rwa [hiff]

/-- Two computations in a row yield a value if both do. -/
theorem Emits.bind
    {α β : Type} {good more : Prop} {x : Except ParseError α} {f : α → Except ParseError β} {a : α}
    {b : β} (hx : Emits tokens limit good x a) (hf : Emits tokens limit more (f a) b) :
    Emits tokens limit (good ∧ more) (x >>= f) b := by
  by_cases hgood : good
  · rw [hx.1 hgood]
    exact hf.of_iff (by simp [hgood])
  · obtain ⟨index, herror⟩ := hx.2 hgood
    refine ⟨fun h => absurd h.1 hgood, fun _ => ⟨index, ?_⟩⟩
    rw [herror]
    rfl

/-! ## Bracket groups -/

/-- A range that the phrase covers is grouped, unless it nests too deep. -/
def RecursesTo (tokens : Array Token) (limit : Nat) (recurse : TokenRange → Emit) (good : Prop)
    (p : Phrase) : Prop :=
  ∀ start entries, p.Spells tokens start →
    Emits tokens limit good (recurse ⟨start, start + p.width⟩ (List.toArray entries))
      (entries ++ p.grouped tokens start).toArray

/-- Later parts are grouped one after the other. -/
theorem groupParts_of_spells
    {recurse : TokenRange → Emit} {good : Phrase → Prop} {parts : List Phrase}
    (hparts : ∀ p ∈ parts, RecursesTo tokens limit recurse (good p) p) {start : Nat}
    (hspells : Phrase.SpellsLater tokens parts start) (entries : List GroupedToken) :
    Emits tokens limit (∀ p ∈ parts, good p)
      (groupParts tokens recurse (Phrase.partRanges parts (start + 1)) entries.toArray)
      (entries ++ Phrase.groupedLater tokens parts start).toArray := by
  induction parts generalizing start entries with
  | nil =>
      refine (Emits.of_ok ?_).of_iff (by simp)
      simp [groupParts, Phrase.partRanges, Phrase.groupedLater]
  | cons p ps ih =>
      obtain ⟨hcomma, hp, hps⟩ := hspells
      have htake := take_of_lt (lt_size_of_kindAt hcomma) entries
      have hhead := hparts p List.mem_cons_self (start + 1) (entries ++ copy tokens start) hp
      have htail := ih (fun q hq => hparts q (List.mem_cons_of_mem p hq)) hps
        (entries ++ copy tokens start ++ p.grouped tokens (start + 1))
      have hstep : groupParts tokens recurse (Phrase.partRanges (p :: ps) (start + 1))
          entries.toArray = recurse ⟨start + 1, start + 1 + p.width⟩
              (entries ++ copy tokens start).toArray >>=
            groupParts tokens recurse (Phrase.partRanges ps (start + 1 + p.width + 1)) := by
        simp only [groupParts, Phrase.partRanges, Nat.add_sub_cancel, htake]
        rfl
      have hall := hhead.bind htail
      rw [hstep]
      simp only [Phrase.groupedLater, List.append_assoc] at hall ⊢
      exact hall.of_iff (by simp)

/-- A bracket group is grouped part by part. -/
theorem groupBrackets_of_spells
    {recurse : TokenRange → Emit} {good : Phrase → Prop} {b : Bracket} {parts : List Phrase}
    (hparts : ∀ p ∈ parts, RecursesTo tokens limit recurse (good p) p) {opening stop : Nat}
    (hspells : (Phrase.group b parts).Spells tokens opening)
    (hstop : opening + (Phrase.group b parts).width ≤ stop) (entries : List GroupedToken) :
    Emits tokens limit (∀ p ∈ parts, good p)
      (groupBrackets tokens recurse opening stop b entries.toArray)
      (opening + (Phrase.group b parts).width - 1,
        (entries ++ (Phrase.group b parts).grouped tokens opening).toArray) := by
  have hclosing : opening + (Phrase.group b parts).width - 1 =
      opening + 1 + Phrase.partsWidth parts := by
    simp only [Phrase.width]
    omega
  rw [groupBrackets_of_resolve (Phrase.resolve_of_spells hspells hstop)]
  obtain ⟨hopening, hinner, hlast⟩ := hspells
  have htake := take_of_lt (lt_size_of_kindAt hopening) entries
  have hclose := take_of_lt (lt_size_of_kindAt hlast)
    (entries ++ copy tokens opening ++ Phrase.groupedParts tokens parts (opening + 1))
  have hinterior : Emits tokens limit (∀ p ∈ parts, good p)
      (groupInterior tokens recurse (Phrase.partRanges parts (opening + 1))
        (entries ++ copy tokens opening).toArray)
      (entries ++ copy tokens opening ++
        Phrase.groupedParts tokens parts (opening + 1)).toArray := by
    cases parts with
    | nil =>
        refine (Emits.of_ok ?_).of_iff (by simp)
        simp [groupInterior, Phrase.partRanges, Phrase.groupedParts]
    | cons p ps =>
        have hhead := hparts p List.mem_cons_self (opening + 1) (entries ++ copy tokens opening)
          hinner.1
        have htail := groupParts_of_spells
          (fun q hq => hparts q (List.mem_cons_of_mem p hq)) hinner.2
          (entries ++ copy tokens opening ++ p.grouped tokens (opening + 1))
        have hall := hhead.bind htail
        simp only [List.append_assoc] at hall
        simp only [Phrase.groupedParts, List.append_assoc]
        exact hall.of_iff (by simp)
  simp only [hclosing, Phrase.grouped]
  have hend : Emits tokens limit True
      (take tokens (opening + 1 + Phrase.partsWidth parts)
          (entries ++ copy tokens opening ++
            Phrase.groupedParts tokens parts (opening + 1)).toArray >>= fun out =>
        .ok (opening + 1 + Phrase.partsWidth parts, out))
      (opening + 1 + Phrase.partsWidth parts,
        (entries ++ (copy tokens opening ++ Phrase.groupedParts tokens parts (opening + 1) ++
          copy tokens (opening + 1 + Phrase.partsWidth parts))).toArray) := by
    apply Emits.of_ok
    rw [hclose]
    simp [Bind.bind, Except.bind]
  exact ((Emits.of_ok htake).bind (hinterior.bind hend)).of_iff (by simp)

end Grouping

/-! ## The statement -/

/-- Some frames wait for the phrase, which is spelled where they end, and the bounds on loops and
recursion are large enough. -/
structure Ground.Ready (ground : Ground) (limit : Nat) (p : Phrase) (range : TokenRange)
    (fuel depth steps more : Nat) (fs : List Frame) : Prop where
  spells : p.Spells ground.tokens (ground.reached fs)
  fits : p.Fits (Frame.innerLeast fs)
  start_eq : range.start = ground.first
  stop_le : ground.reached fs + p.width ≤ range.stop
  depth_lt : depth < limit
  enough : limit ≤ depth + fuel
  steps_le : range.stop - ground.reached fs ≤ steps
  more_le : range.stop - ground.reached fs ≤ more

/-- Where frames wait for the phrase, its spine comes on top of them and its tip is held, unless
it nests too deep. -/
def Grouping.RunsTo (limit : Nat) (p : Phrase) : Prop :=
  ∀ (ground : Ground) range fuel depth steps more fs operandStart,
    ground.Ready limit p range fuel depth steps more fs →
    (depth + p.depth < limit → ∃ left, range.stop - (ground.reached fs + p.width) ≤ left ∧
      operand ground.tokens (expression ground.tokens limit fuel (depth + 1)) range steps
          (ground.waiting fs operandStart) >>=
        operators ground.tokens (expression ground.tokens limit fuel (depth + 1)) range more =
      operators ground.tokens (expression ground.tokens limit fuel (depth + 1)) range left
        (ground.holding (p.spine ++ fs) p.tip)) ∧
    (¬ depth + p.depth < limit → ∃ index,
      operand ground.tokens (expression ground.tokens limit fuel (depth + 1)) range steps
          (ground.waiting fs operandStart) >>=
        operators ground.tokens (expression ground.tokens limit fuel (depth + 1)) range more =
      .error (.tooDeepAt ground.tokens limit index))

/-- A range that the phrase covers is grouped, unless it nests too deep. -/
def Grouping.GroupsTo (limit : Nat) (p : Phrase) : Prop :=
  ∀ tokens fuel depth, depth ≤ limit → limit < depth + fuel →
    RecursesTo tokens limit (expression tokens limit fuel depth) (depth + p.depth < limit) p

namespace Ground

variable {ground : Ground} {limit : Nat} {range : TokenRange} {fuel depth steps more : Nat}
  {fs : List Frame}

theorem reached_spine
    (ground : Ground) (p : Phrase) (fs : List Frame) :
    ground.reached (p.spine ++ fs) + p.tip.width = ground.reached fs + p.width := by
  have := ground.width_foldl_close p.spine fs p.tip
  rw [Phrase.foldl_close_spine] at this
  exact this.symm

/-! ## Operands -/

/-- A step is left for every token that is left. -/
theorem Ready.exists_succ
    {p : Phrase} (h : ground.Ready limit p range fuel depth steps more fs) :
    ∃ less, steps = less + 1 := by
  have := h.steps_le
  have := h.stop_le
  have := p.width_pos
  exact ⟨steps - 1, by omega⟩

theorem runsTo_leaf
    (limit : Nat) (kind : NodeKind) : RunsTo limit (.leaf kind) := by
  intro ground range fuel depth steps more fs operandStart hready
  obtain ⟨steps, rfl⟩ := hready.exists_succ
  obtain ⟨k, hkind, hleaf⟩ := Phrase.exists_of_spells_leaf hready.spells
  have hstop := hready.stop_le
  have hdepth := hready.depth_lt
  simp only [Phrase.width] at hstop
  refine ⟨fun _ => ⟨more, ?_, ?_⟩, fun hnot => absurd hdepth hnot⟩
  · have := hready.more_le
    simp only [Phrase.width]
    omega
  · rw [operand_leaf (by omega) hkind hleaf]
    rfl

theorem requireFilled_of_spells
    {tokens : Array Token} {b : Bracket} {parts : List Phrase} {opening stop : Nat}
    (hspells : (Phrase.group b parts).Spells tokens opening)
    (hstop : opening + (Phrase.group b parts).width ≤ stop)
    (hlength : b = .paren → parts.length = 1) : requireFilled tokens opening stop b = .ok () := by
  cases b with
  | square => rfl
  | brace => rfl
  | paren =>
      have hmatching := Phrase.matching_of_spells hspells hstop
      obtain ⟨p, rfl⟩ := List.length_eq_one_iff.mp (hlength rfl)
      have hpos := p.width_pos
      have hinterior : (⟨opening, opening + (Phrase.group .paren [p]).width⟩ :
          Scope).interior.isEmpty = false := by
        rw [Bool.eq_false_iff, Ne, TokenRange.isEmpty_iff_length_eq_zero]
        simp only [Scope.interior, TokenRange.length, Phrase.width, Phrase.partsWidth,
          Phrase.laterWidth]
        omega
      simp [requireFilled, hmatching, liftScope, bind, Except.bind, hinterior]

theorem partsDepth_lt_iff
    {parts : List Phrase} {depth limit : Nat} (hdepth : depth < limit) :
    depth + Phrase.partsDepth parts < limit ↔ ∀ p ∈ parts, depth + 1 + p.depth < limit := by
  have hle : depth + Phrase.partsDepth parts < limit ↔
      Phrase.partsDepth parts ≤ limit - depth - 1 := by omega
  rw [hle, Phrase.partsDepth_le_iff]
  apply forall_congr'
  intro p
  apply forall_congr'
  intro _
  omega

theorem runsTo_group
    {b : Bracket} {parts : List Phrase} (hlength : b = .paren → parts.length = 1)
    (hparts : ∀ p ∈ parts, GroupsTo limit p) : RunsTo limit (.group b parts) := by
  intro ground range fuel depth steps more fs operandStart hready
  obtain ⟨steps, rfl⟩ := hready.exists_succ
  have hpos := (Phrase.group b parts).width_pos
  have hstop := hready.stop_le
  have hdepth := hready.depth_lt
  have henough := hready.enough
  have hbrackets := groupBrackets_of_spells
    (fun p hp => hparts p hp ground.tokens fuel (depth + 1) (by omega) (by omega)) hready.spells
    hstop (ground.written fs)
  have hgood : depth + (Phrase.group b parts).depth < limit ↔
      ∀ p ∈ parts, depth + 1 + p.depth < limit := partsDepth_lt_iff hdepth
  rw [operand_group (by omega) hready.spells.1,
    requireFilled_of_spells hready.spells hstop hlength, hgood]
  constructor
  · intro hall
    refine ⟨more, ?_, ?_⟩
    · have := hready.more_le
      omega
    · rw [hbrackets.1 hall]
      simp only [bind, Except.bind, pure, Except.pure, Phrase.spine, Phrase.tip, List.nil_append,
        holding, Nat.sub_add_cancel (Nat.le_trans hpos (Nat.le_add_left _ _))]
  · intro hnot
    obtain ⟨index, herror⟩ := hbrackets.2 hnot
    refine ⟨index, ?_⟩
    rw [herror]
    rfl

theorem runsTo_before
    {op : Operation} {operand : Phrase} (hfollows : operand.FollowsBefore)
    (hordered : operand.Ordered) (hoperand : RunsTo limit operand) :
    RunsTo limit (.before op operand) := by
  intro ground range fuel depth steps more fs operandStart hready
  obtain ⟨steps, rfl⟩ := hready.exists_succ
  obtain ⟨k, hkind, hbefore⟩ := Phrase.exists_of_spells_before hready.spells
  obtain ⟨hspells, -, hstart, hstop, hdepth, henough, hsteps, hmore⟩ := hready
  simp only [Phrase.width] at hstop
  have hinner : ground.Ready limit operand range fuel depth steps more (.before op :: fs) :=
    { spells := by
        rw [reached_cons]
        exact hspells.2
      fits := hfollows.fits hordered
      start_eq := hstart
      stop_le := by
        rw [reached_cons, Frame.width]
        omega
      depth_lt := hdepth
      enough := henough
      steps_le := by
        rw [reached_cons, Frame.width]
        omega
      more_le := by
        rw [reached_cons, Frame.width]
        omega }
  have hruns := hoperand ground range fuel depth steps more (.before op :: fs) operandStart hinner
  have hreached : ground.reached (.before op :: fs) + operand.width =
      ground.reached fs + (Phrase.before op operand).width := by
    simp only [reached_cons, Frame.width, Phrase.width]
    omega
  rw [hreached] at hruns
  rw [operand_before (by omega) hkind hbefore]
  simpa [Phrase.depth, Phrase.spine, Phrase.tip] using hruns

/-! ## Operators -/

/-- What stands after a phrase closes just the spine of the phrase. -/
theorem settled_closedByGroup
    {p : Phrase} (hprecedes : p.PrecedesAfter) (hordered : p.Ordered)
    (hleast : Frame.innerLeast fs ≤ Operation.afterPriority) :
    settled Frame.closedByGroup (p.spine ++ fs) p.tip = .ok (fs, p) := by
  have hclosed : ∀ f ∈ p.spine, f.closedByGroup = .ok true := by
    intro f hf
    obtain ⟨left, rfl⟩ := hprecedes.eq_of_mem_spine hordered hf
    have hlt : Operation.afterPriority < Operation.memberAccess.priority := by decide
    exact Frame.closedByGroup_eq_true_iff.mpr hlt
  have hopen : ∀ f ∈ fs.head?, f.closedByGroup = .ok false := by
    intro f hf
    cases fs with
    | nil => simp at hf
    | cons g gs =>
        obtain rfl : g = f := by simpa using hf
        exact Frame.closedByGroup_eq_false_iff.mpr (Nat.le_trans g.priority_le_least hleast)
  rw [settled_append hclosed hopen, Phrase.foldl_close_spine]

/-- An operation between operands closes just the spine of its left operand. -/
theorem settled_closedBy
    {tokens : Array Token} {p : Phrase} {op : Operation} {index : Nat} (hleft : p.LeftOf op)
    (hbetween : op.entry.fixity = .between) (hordered : p.Ordered)
    (hleast : Frame.innerLeast fs ≤ op.priority) :
    settled (Frame.closedBy tokens op index) (p.spine ++ fs) p.tip = .ok (fs, p) := by
  have hclosed : ∀ f ∈ p.spine, f.closedBy tokens op index = .ok true := fun f hf =>
    Frame.closedBy_eq_true_iff.mpr (hleft.closedBy_of_mem_spine hbetween hordered hf)
  have hopen : ∀ f ∈ fs.head?, f.closedBy tokens op index = .ok false := by
    intro f hf
    cases fs with
    | nil => simp at hf
    | cons g gs =>
        obtain rfl : g = f := by simpa using hf
        exact (Frame.closedBy_eq_false_iff hbetween).mpr hleast
  rw [settled_append hclosed hopen, Phrase.foldl_close_spine]

/-- The operand at the start of a longer phrase is ready if the phrase is. -/
theorem Ready.of_le
    {p q : Phrase} (h : ground.Ready limit p range fuel depth steps more fs)
    (hspells : q.Spells ground.tokens (ground.reached fs)) (hfits : q.Fits (Frame.innerLeast fs))
    (hwidth : q.width ≤ p.width) : ground.Ready limit q range fuel depth steps more fs :=
  { h with
    spells := hspells
    fits := hfits
    stop_le := by
      have := h.stop_le
      omega }

theorem runsTo_after
    {operand : Phrase} {op : Operation} (hprecedes : operand.PrecedesAfter)
    (hordered : operand.Ordered) (hoperand : RunsTo limit operand) :
    RunsTo limit (.after operand op) := by
  intro ground range fuel depth steps more fs operandStart hready
  obtain ⟨k, hkind, hafter⟩ := Phrase.exists_of_spells_after hready.spells
  have hstop := hready.stop_le
  simp only [Phrase.width, ← Nat.add_assoc] at hstop
  have hinner : ground.Ready limit operand range fuel depth steps more fs :=
    hready.of_le hready.spells.1 hready.fits.2 (Nat.le_succ _)
  have hreached := ground.reached_spine operand fs
  obtain ⟨hgood, hbad⟩ :=
    hoperand ground range fuel depth steps more fs operandStart hinner
  refine ⟨fun hdepth => ?_, hbad⟩
  obtain ⟨left, hleft, hrun⟩ := hgood hdepth
  obtain ⟨left, rfl⟩ : ∃ less, left = less + 1 := ⟨left - 1, by omega⟩
  refine ⟨left, by simp only [Phrase.width]; omega, ?_⟩
  rw [hrun, operators_after (by omega) (by rwa [hreached]) hafter,
    settled_closedByGroup hprecedes hordered hready.fits.1]
  rfl

theorem runsTo_applied
    {callee : Phrase} {b : Bracket} {parts : List Phrase} (hprecedes : callee.PrecedesAfter)
    (hordered : callee.Ordered) (hcallee : RunsTo limit callee)
    (hparts : ∀ p ∈ parts, GroupsTo limit p) : RunsTo limit (.applied callee b parts) := by
  intro ground range fuel depth steps more fs operandStart hready
  obtain ⟨hspells, hgroup⟩ := Phrase.spells_applied_iff.mp hready.spells
  have hpos := (Phrase.group b parts).width_pos
  have hstop := hready.stop_le
  have hdepth := hready.depth_lt
  have henough := hready.enough
  rw [Phrase.width_applied, ← Nat.add_assoc] at hstop
  have hinner : ground.Ready limit callee range fuel depth steps more fs :=
    hready.of_le hspells hready.fits.2 (by rw [Phrase.width_applied]; omega)
  have hreached := ground.reached_spine callee fs
  have hbrackets := groupBrackets_of_spells
    (fun p hp => hparts p hp ground.tokens fuel (depth + 1) (by omega) (by omega)) hgroup
    hstop (ground.written fs ++ callee.grouped ground.tokens (ground.reached fs))
  have hsettled := settled_closedByGroup hprecedes hordered hready.fits.1
  have hboth : depth + (Phrase.applied callee b parts).depth < limit ↔
      depth + callee.depth < limit ∧ ∀ p ∈ parts, depth + 1 + p.depth < limit := by
    rw [← partsDepth_lt_iff hdepth]
    simp only [Phrase.depth]
    omega
  obtain ⟨hgood, hbad⟩ :=
    hcallee ground range fuel depth steps more fs operandStart hinner
  rw [hboth]
  by_cases hcalleeDepth : depth + callee.depth < limit
  · obtain ⟨left, hleft, hrun⟩ := hgood hcalleeDepth
    obtain ⟨left, rfl⟩ : ∃ less, left = less + 1 := ⟨left - 1, by omega⟩
    rw [← hreached] at hgroup hbrackets
    constructor
    · rintro ⟨-, hall⟩
      refine ⟨left, by rw [Phrase.width_applied]; omega, ?_⟩
      rw [hrun, operators_applied (by omega) hgroup hsettled (hbrackets.1 hall)]
      rfl
    · intro hnot
      obtain ⟨index, herror⟩ := hbrackets.2 fun hall => hnot ⟨hcalleeDepth, hall⟩
      refine ⟨index, ?_⟩
      rw [hrun, operators_group (by omega) hgroup.1, hsettled]
      simp only [holding, herror, bind, Except.bind]
  · exact ⟨fun h => absurd h.1 hcalleeDepth, fun _ => hbad hcalleeDepth⟩

theorem runsTo_between
    {left right : Phrase} {op : Operation}
    (hordered : (Phrase.between left op right).Ordered) (hleft : RunsTo limit left)
    (hright : RunsTo limit right) : RunsTo limit (.between left op right) := by
  intro ground range fuel depth steps more fs operandStart hready
  obtain ⟨hbetween, hleftOf, hrightOf, hleftOrdered, hrightOrdered⟩ := hordered
  obtain ⟨k, hkind, hk⟩ := Phrase.exists_of_spells_between hready.spells
  have hstop := hready.stop_le
  simp only [Phrase.width] at hstop
  have hinner : ground.Ready limit left range fuel depth steps more fs :=
    hready.of_le hready.spells.1 hready.fits.2 (by simp only [Phrase.width]; omega)
  have hreached := ground.reached_spine left fs
  obtain ⟨hgood, hbad⟩ := hleft ground range fuel depth steps more fs operandStart hinner
  have hboth : depth + (Phrase.between left op right).depth < limit ↔
      depth + left.depth < limit ∧ depth + right.depth < limit := by
    simp only [Phrase.depth]
    omega
  rw [hboth]
  by_cases hleftDepth : depth + left.depth < limit
  · obtain ⟨rest, hrest, hrun⟩ := hgood hleftDepth
    obtain ⟨rest, rfl⟩ : ∃ less, rest = less + 1 := ⟨rest - 1, by omega⟩
    -- The right operand is read with the operation as the innermost frame.
    have hnext : ground.reached (.between left op :: fs) = ground.reached fs + left.width + 1 := by
      rw [reached_cons, Frame.width]
      omega
    have hrightReady : ground.Ready limit right range fuel depth range.length rest
        (.between left op :: fs) :=
      { spells := by
          rw [hnext]
          exact hready.spells.2.2
        fits := hrightOf.fits hbetween hrightOrdered
        start_eq := hready.start_eq
        stop_le := by omega
        depth_lt := hready.depth_lt
        enough := hready.enough
        steps_le := by
          have hstart := hready.start_eq
          simp only [TokenRange.length, reached] at hnext ⊢
          omega
        more_le := by omega }
    have hruns := hright ground range fuel depth range.length rest (.between left op :: fs)
      (ground.written fs).length hrightReady
    have hwidth : ground.reached (.between left op :: fs) + right.width =
        ground.reached fs + (Phrase.between left op right).width := by
      rw [hnext]
      simp only [Phrase.width]
      omega
    rw [hwidth] at hruns
    rw [hrun, operators_between (by omega) (by rwa [hreached]) hk,
      settled_closedBy hleftOf hbetween hleftOrdered hready.fits.1]
    simpa [hleftDepth, Phrase.spine, Phrase.tip] using hruns
  · exact ⟨fun h => absurd h.1 hleftDepth, fun _ => hbad hleftDepth⟩

end Ground

namespace Grouping

/-! ## Ranges -/

/-- A phrase fills a range as it is read as an operand that nothing waits for. -/
theorem RunsTo.groupsTo
    {limit : Nat} {p : Phrase} (h : RunsTo limit p) (hordered : p.Ordered) : GroupsTo limit p := by
  intro tokens fuel depth hdepth henough start entries hspells
  obtain ⟨fuel, rfl⟩ : ∃ less, fuel = less + 1 := ⟨fuel - 1, by omega⟩
  have hpos := p.width_pos
  have hempty : (⟨start, start + p.width⟩ : TokenRange).isEmpty = false := by
    rw [Bool.eq_false_iff, Ne, TokenRange.isEmpty_iff_length_eq_zero]
    simp only [TokenRange.length]
    omega
  rw [expression, expressionWith, if_neg (by simp [hempty])]
  by_cases hle : limit ≤ depth
  · rw [if_pos hle]
    exact ⟨fun hlt => absurd hlt (by omega), fun _ => ⟨_, rfl⟩⟩
  rw [if_neg hle]
  let ground : Ground := ⟨tokens, entries, start⟩
  have hready : ground.Ready limit p ⟨start, start + p.width⟩ fuel depth
      (⟨start, start + p.width⟩ : TokenRange).length
      (⟨start, start + p.width⟩ : TokenRange).length [] :=
    { spells := hspells
      fits := Phrase.fits_zero hordered
      start_eq := rfl
      stop_le := Nat.le_refl _
      depth_lt := by omega
      enough := by omega
      steps_le := Nat.le_refl _
      more_le := Nat.le_refl _ }
  obtain ⟨hgood, hbad⟩ := h ground _ fuel depth _ _ [] entries.toArray.size hready
  refine ⟨fun hlt => ?_, hbad⟩
  obtain ⟨left, -, hrun⟩ := hgood hlt
  have hreached := ground.reached_spine p []
  have hsize : ground.reached (p.spine ++ []) ≤ ground.tokens.size := by
    have hbound : ground.reached [] + p.width ≤ ground.tokens.size := hspells.le_size
    omega
  have hfinish := Ground.finish_holding (p.spine ++ []) p.tip hsize
  rw [Ground.operators_of_le (Nat.le_of_eq hreached.symm), hfinish] at hrun
  rw [List.append_nil, Phrase.foldl_close_spine] at hrun
  exact hrun

/-- Every ordered phrase whose grouping parentheses hold single parts is grouped, unless it nests
too deep. -/
theorem runsTo_and_groupsTo
    (limit : Nat) {p : Phrase} (hordered : p.Ordered) (hsingle : p.Single) :
    RunsTo limit p ∧ GroupsTo limit p := by
  suffices hruns : RunsTo limit p from ⟨hruns, hruns.groupsTo hordered⟩
  induction p with
  | leaf kind => exact Ground.runsTo_leaf limit kind
  | group b parts ih =>
      have hparts := Phrase.allOrdered_iff.mp hordered
      have hsingles := Phrase.allSingle_iff.mp hsingle.2
      apply Ground.runsTo_group hsingle.1
      intro p hp
      exact (ih p hp (hparts p hp) (hsingles p hp)).groupsTo (hparts p hp)
  | before op operand ih =>
      exact Ground.runsTo_before hordered.1 hordered.2 (ih hordered.2 hsingle)
  | after operand op ih =>
      exact Ground.runsTo_after hordered.1 hordered.2 (ih hordered.2 hsingle)
  | applied callee b parts ihCallee ihParts =>
      obtain ⟨hprecedes, hcallee, hparts⟩ := hordered
      have hparts := Phrase.allOrdered_iff.mp hparts
      have hsingles := Phrase.allSingle_iff.mp hsingle.2
      apply Ground.runsTo_applied hprecedes hcallee (ihCallee hcallee hsingle.1)
      intro p hp
      exact (ihParts p hp (hparts p hp) (hsingles p hp)).groupsTo (hparts p hp)
  | between left op right ihLeft ihRight =>
      exact Ground.runsTo_between hordered (ihLeft hordered.2.2.2.1 hsingle.1)
        (ihRight hordered.2.2.2.2 hsingle.2)

/-- A phrase that covers a range decides how the range is grouped. -/
theorem groupTokens_of_covers
    {tokens : Array Token} {range : TokenRange} {limit : Nat} {p : Phrase}
    (hcovers : p.Covers tokens range) (hordered : p.Ordered) (hsingle : p.Single) :
    Emits tokens limit (p.depth < limit) (groupTokens tokens range limit)
      ⟨(p.grouped tokens range.start).toArray⟩ := by
  obtain ⟨start, stop⟩ := range
  obtain ⟨hspells, hstop⟩ := hcovers
  simp only at hspells hstop
  subst hstop
  have hgroups := (runsTo_and_groupsTo limit hordered hsingle).2 tokens (recursionBound limit) 0
    (Nat.zero_le _) (by unfold recursionBound; omega) start [] hspells
  rw [Nat.zero_add] at hgroups
  unfold groupTokens
  constructor
  · intro hlt
    simp only [hgroups.1 hlt, List.nil_append]
  · intro hnot
    obtain ⟨index, herror⟩ := hgroups.2 hnot
    exact ⟨index, by simp only [herror]⟩

end Grouping

end ExprFront
