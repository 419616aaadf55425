import ExprFront.Proofs.Scope.Parts
import ExprFront.Proofs.Scope.Statements

/-!
# Statements as a partition of their range

A range that is split is divided up: every token belongs to exactly one
statement or is a semicolon between statements. Each statement runs to the first
semicolon outside its brackets, where the brackets are counted from its first
token on.

Splitting composes as well. A statement that is found before some end is found
before every later end, so a range can be split in two steps at any place up to
which it can be split at all.
-/

namespace ExprFront

/-! ## Later ends -/

namespace ScopeShape

variable {shape : ScopeShape} {tokens : Array Token}

theorem walk_add
    {opener : Token} {steps index after : Nat} {pending : List Token}
    (h : shape.walk tokens opener steps index pending = .ok after) (more : Nat) :
    shape.walk tokens opener (steps + more) index pending = .ok after := by
  induction steps generalizing index pending with
  | zero => cases h
  | succ steps ih =>
      rw [walk] at h
      rw [Nat.add_right_comm, walk]
      split at h
      · cases h
      · split at h
        · exact h
        · exact ih h
        · cases h

/-- A scope that is closed before an end is closed in the same way before every later end. -/
theorem resolve_of_le
    {start stop later : Nat} {scope : Scope}
    (h : shape.resolve tokens ⟨start, stop⟩ = .ok scope) (hle : stop ≤ later) :
    shape.resolve tokens ⟨start, later⟩ = .ok scope := by
  unfold resolve at h ⊢
  dsimp only at h ⊢
  split at h
  · split at h
    · rename_i hopens
      rw [Bool.and_eq_true, decide_eq_true_eq] at hopens
      have hlt : start < min later tokens.size := by omega
      have hsteps : min later tokens.size - (start + 1) =
          min stop tokens.size - (start + 1) + (min later tokens.size - min stop tokens.size) := by
        omega
      simp only [hlt, hopens.2, decide_true, Bool.and_self, if_true]
      split at h
      · rename_i after hwalk
        rw [hsteps, walk_add hwalk]
        exact h
      · cases h
    · cases h
  · cases h

end ScopeShape

namespace Statement

variable {tokens : Array Token} {statement : Statement} {statements : List Statement}

/-- A statement that ends before some end of the range is found before every later end. -/
theorem resolve_of_le
    {start stop later : Nat} {t : Token} (h : resolve tokens ⟨start, stop⟩ t = .ok statement)
    (hle : stop ≤ later) : resolve tokens ⟨start, later⟩ t = .ok statement := by
  have hscope : ∀ {shape : ScopeShape} {found : Scope → Statement},
      (shape.resolve tokens ⟨start, stop⟩).map found = .ok statement →
      (shape.resolve tokens ⟨start, later⟩).map found = .ok statement := by
    intro shape found hfound
    obtain ⟨scope, hresolve, rfl⟩ := map_eq_ok_iff.mp hfound
    exact map_eq_ok_iff.mpr ⟨scope, ScopeShape.resolve_of_le hresolve hle, rfl⟩
  unfold resolve at h ⊢
  split at h
  · exact hscope h
  · exact hscope h

/-! ## Brackets of a statement -/

/-- The number of brackets that are open before an index, for a statement that starts at `start`.
The first token counts only if it opens a bracket. -/
def openBefore (tokens : Array Token) (start index : Nat) : Int :=
  if index ≤ start then 0
  else
    (if ((kindAt tokens start).bind TokenKind.opens).isSome then 1 else 0) +
      depthAfter tokens (start + 1) (index - (start + 1))

/-- In a balanced run the first token counts like any other. -/
theorem openBefore_of_balanced
    {free : TokenKind → Prop} {start stop index : Nat}
    (h : Balanced tokens free start stop) (hstart : start < stop) (hindex : start ≤ index) :
    openBefore tokens start index = depthAfter tokens start (index - start) := by
  obtain ⟨k, hkind, hcloses, -⟩ := h.exists_first hstart
  unfold openBefore
  split
  · rw [show index - start = 0 by omega]
    rfl
  · rw [show index - start = index - (start + 1) + 1 by omega, depthAfter_succ, hkind]
    simp [depthChange, hcloses]

/-- A closing bracket in the first place does not count. -/
theorem openBefore_of_closing
    {b : Bracket} {start index : Nat}
    (hfirst : kindAt tokens start = some (.punctuation b.closing)) (hindex : start < index) :
    openBefore tokens start index = depthAfter tokens (start + 1) (index - (start + 1)) := by
  have hopens : (TokenKind.punctuation b.closing).opens = none :=
    TokenKind.opens_eq_none_of_closes (TokenKind.closes_eq_some_iff.mpr rfl)
  rw [openBefore, if_neg (Nat.not_le_of_lt hindex), hfirst]
  simp [hopens]

/-- Semicolons in a balanced run that allows none stand in brackets. -/
theorem depthAfter_pos_of_semicolon
    {start stop index : Nat}
    (h : Balanced tokens (· ≠ .punctuation .semicolon) start stop) (hlow : start ≤ index)
    (hhigh : index < stop) (hkind : kindAt tokens index = some (.punctuation .semicolon)) :
    0 < depthAfter tokens start (index - start) := by
  have hnonneg := h.depthAfter_eq_zero_and_nonneg.2 (index - start) (by omega)
  have hne : depthAfter tokens start (index - start) ≠ 0 := by
    intro hzero
    refine h.free_of_depthAfter rfl (by omega) hzero ?_ rfl
    rwa [Nat.add_sub_cancel' hlow]
  omega

/-- All brackets of a run that is taken for a statement are closed at its end. -/
theorem Taken.openBefore_stop
    {range : TokenRange} (h : Taken tokens range) :
    openBefore tokens range.start range.stop = 0 := by
  cases h with
  | statement hforms =>
      rw [openBefore_of_balanced hforms.balanced hforms.nonempty (Nat.le_of_lt hforms.nonempty)]
      exact hforms.balanced.depthAfter_eq_zero_and_nonneg.1
  | closing b hfirst hbalanced =>
      rw [openBefore_of_closing hfirst hbalanced.le]
      exact hbalanced.depthAfter_eq_zero_and_nonneg.1

/-- Every semicolon of a run that is taken for a statement stands in brackets. -/
theorem Taken.openBefore_pos
    {range : TokenRange} (h : Taken tokens range) {index : Nat} (hlow : range.start ≤ index)
    (hhigh : index < range.stop) (hkind : kindAt tokens index = some (.punctuation .semicolon)) :
    0 < openBefore tokens range.start index := by
  cases h with
  | statement hforms =>
      rw [openBefore_of_balanced hforms.balanced hforms.nonempty hlow]
      exact depthAfter_pos_of_semicolon hforms.balanced hlow hhigh hkind
  | closing b hfirst hbalanced hended =>
      have hne : range.start ≠ index := by
        intro heq
        rw [heq, hkind] at hfirst
        cases b <;> cases hfirst
      have hlt : range.start < index := Nat.lt_of_le_of_ne hlow hne
      rw [openBefore_of_closing hfirst hlt]
      exact depthAfter_pos_of_semicolon hbalanced hlt hhigh hkind

theorem Taken.ended
    {range : TokenRange} (h : Taken tokens range) :
    kindAt tokens range.stop = some (.punctuation .semicolon) := by
  cases h with
  | statement hforms => exact hforms.ended
  | closing _ _ _ hended => exact hended

/-! ## Single statements -/

/-- The statement runs to the first semicolon outside its brackets, and its first token tells its
kind. -/
structure Delimited (tokens : Array Token) (statement : Statement) : Prop where
  scope_eq : statement.scope = ⟨statement.range.start, statement.range.stop + 1⟩
  nonempty : statement.range.start < statement.range.stop
  ended : kindAt tokens statement.range.stop = some (.punctuation .semicolon)
  outside : openBefore tokens statement.range.start statement.range.stop = 0
  inside : ∀ index, statement.range.start ≤ index → index < statement.range.stop →
    kindAt tokens index = some (.punctuation .semicolon) →
    0 < openBefore tokens statement.range.start index
  kind_iff : ∀ d, statement.kind = .directive d ↔
    kindAt tokens statement.range.start = some (.directive d)

/-- The kind of a resolved statement is told by its first token, and its scope starts there. -/
theorem kind_and_start_of_resolve
    {start stop : Nat} {t : Token} (h : resolve tokens ⟨start, stop⟩ t = .ok statement) :
    (∀ d, statement.kind = .directive d ↔ t.kind = .directive d) ∧
      statement.scope.start = start := by
  unfold resolve at h
  split at h
  · rename_i d hdirective
    obtain ⟨scope, hscope, rfl⟩ := map_eq_ok_iff.mp h
    refine ⟨fun d' => ?_, (ScopeShape.resolve_bounds _ _ _ _ hscope).1⟩
    rw [directive?_eq_some_iff.mp hdirective]
    simp
  · rename_i hdirective
    obtain ⟨scope, hscope, rfl⟩ := map_eq_ok_iff.mp h
    refine ⟨fun d' => ?_, (ScopeShape.resolve_bounds _ _ _ _ hscope).1⟩
    rw [← directive?_eq_some_iff, hdirective]
    simp

/-- A resolved statement is delimited by the first semicolon outside its brackets. -/
theorem delimited_of_resolve
    {start stop : Nat} {t : Token} (ht : tokens[start]? = some t)
    (hkind : t.kind ≠ .punctuation .semicolon) (hstart : start < stop)
    (hstop : stop ≤ tokens.size) (h : resolve tokens ⟨start, stop⟩ t = .ok statement) :
    Delimited tokens statement ∧ statement.scope.start = start ∧
      start < statement.scope.stop ∧ statement.scope.stop ≤ stop := by
  obtain ⟨hdirective, hfirst⟩ := kind_and_start_of_resolve h
  obtain ⟨last, hrange, hafter⟩ := exists_range_of_resolve h
  obtain ⟨hlast, htaken⟩ := (exists_resolve_iff ht hkind hstart hstop).mp ⟨statement, h, hrange⟩
  have hnonempty := htaken.start_lt
  rw [← hrange] at htaken
  refine ⟨⟨?_, htaken.start_lt, htaken.ended, htaken.openBefore_stop, ?_, ?_⟩, hfirst, ?_, ?_⟩
  · rw [hrange, ← hafter, ← hfirst]
  · intro index hlow hhigh
    exact htaken.openBefore_pos hlow hhigh
  · intro d
    rw [hdirective, hrange, kindAt_eq_some_iff]
    simp [ht]
  · dsimp only at hnonempty
    omega
  · omega

/-! ## Partitions -/

/-- The index lies in the scope of the statement. -/
def Holds (statement : Statement) (index : Nat) : Prop :=
  statement.scope.start ≤ index ∧ index < statement.scope.stop

/-- The statements divide up a range: they come in order without overlap, and every token of the
range belongs to exactly one of them or is a semicolon outside all of them. -/
structure Partitions (tokens : Array Token) (range : TokenRange) (statements : List Statement) :
    Prop where
  within : ∀ statement ∈ statements,
    range.start ≤ statement.scope.start ∧ statement.scope.stop ≤ range.stop
  ordered : statements.Pairwise fun earlier later => earlier.scope.stop ≤ later.scope.start
  covered : ∀ index, range.start ≤ index → index < range.stop →
    (∃! statement, statement ∈ statements ∧ statement.Holds index) ∨
      kindAt tokens index = some (.punctuation .semicolon) ∧
        ∀ statement ∈ statements, ¬ statement.Holds index
  delimited : ∀ statement ∈ statements, Delimited tokens statement

namespace Partitions

variable {index stop : Nat}

theorem nil (tokens : Array Token) (stop : Nat) : Partitions tokens ⟨stop, stop⟩ [] where
  within := by simp
  ordered := .nil
  covered index hlow hhigh := absurd hhigh (Nat.not_lt_of_le hlow)
  delimited := by simp

/-- A semicolon before the statements belongs to none of them. -/
theorem stray
    (h : Partitions tokens ⟨index + 1, stop⟩ statements)
    (hkind : kindAt tokens index = some (.punctuation .semicolon)) :
    Partitions tokens ⟨index, stop⟩ statements where
  within := by
    intro statement hmem
    obtain ⟨hstart, hstop⟩ := h.within statement hmem
    exact ⟨Nat.le_of_succ_le hstart, hstop⟩
  ordered := h.ordered
  covered := by
    intro other hlow hhigh
    rcases Nat.eq_or_lt_of_le hlow with rfl | hlow
    · refine .inr ⟨hkind, fun statement hmem hholds => ?_⟩
      exact Nat.not_succ_le_self _ (Nat.le_trans (h.within statement hmem).1 hholds.1)
    · exact h.covered other hlow hhigh
  delimited := h.delimited

/-- A further statement before the statements takes the tokens up to them. -/
theorem cons
    (h : Partitions tokens ⟨statement.scope.stop, stop⟩ statements)
    (hdelimited : Delimited tokens statement) (hstop : statement.scope.stop ≤ stop) :
    Partitions tokens ⟨statement.scope.start, stop⟩ (statement :: statements) where
  within := by
    have hlt : statement.scope.start ≤ statement.scope.stop := by
      have hnonempty := hdelimited.nonempty
      rw [hdelimited.scope_eq]
      dsimp only
      omega
    refine List.forall_mem_cons.mpr ⟨⟨Nat.le_refl _, hstop⟩, fun other hmem => ?_⟩
    obtain ⟨hlow, hhigh⟩ := h.within other hmem
    exact ⟨Nat.le_trans hlt hlow, hhigh⟩
  ordered := List.pairwise_cons.mpr ⟨fun other hmem => (h.within other hmem).1, h.ordered⟩
  covered := by
    have hapart : ∀ other ∈ statements, ∀ index, other.Holds index →
        statement.scope.stop ≤ index :=
      fun other hmem index hholds => Nat.le_trans (h.within other hmem).1 hholds.1
    intro index hlow hhigh
    by_cases hfirst : index < statement.scope.stop
    · refine .inl ⟨statement, ⟨List.mem_cons_self, hlow, hfirst⟩, ?_⟩
      rintro other ⟨hmem, hholds⟩
      rcases List.mem_cons.mp hmem with rfl | hmem
      · rfl
      · exact absurd hfirst (Nat.not_lt_of_le (hapart other hmem index hholds))
    · have hnot : ¬ statement.Holds index := fun hholds => hfirst hholds.2
      rcases h.covered index (Nat.le_of_not_lt hfirst) hhigh with
        ⟨other, ⟨hmem, hholds⟩, hunique⟩ | ⟨hkind, hnone⟩
      · refine .inl ⟨other, ⟨List.mem_cons_of_mem statement hmem, hholds⟩, ?_⟩
        rintro another ⟨hanother, hholds'⟩
        rcases List.mem_cons.mp hanother with rfl | hanother
        · exact absurd hholds' hnot
        · exact hunique another ⟨hanother, hholds'⟩
      · exact .inr ⟨hkind, List.forall_mem_cons.mpr ⟨hnot, hnone⟩⟩
  delimited := List.forall_mem_cons.mpr ⟨hdelimited, h.delimited⟩

end Partitions

/-! ## Splitting -/

/-- The statements that a split finds divide up what is split. -/
theorem partitions_of_splitFrom
    {stop index steps : Nat} (hstop : stop ≤ tokens.size) (hindex : index ≤ stop)
    (hsteps : stop - index ≤ steps) (h : splitFrom tokens stop steps index = .ok statements) :
    Partitions tokens ⟨index, stop⟩ statements := by
  induction steps generalizing index statements with
  | zero =>
      obtain rfl : index = stop := by omega
      cases h
      exact .nil tokens index
  | succ steps ih =>
      rcases Nat.eq_or_lt_of_le hindex with rfl | hlt
      · rw [splitFrom_stop] at h
        cases h
        exact .nil tokens index
      · have ht : tokens[index]? = some tokens[index] := Array.getElem?_eq_getElem (by omega)
        by_cases hkind : tokens[index].kind = .punctuation .semicolon
        · have hmark := kindAt_eq_some_iff.mpr ⟨_, ht, hkind⟩
          rw [splitFrom_stray hlt hmark] at h
          exact (ih hlt (by omega) h).stray hmark
        · obtain ⟨statement, later, hresolve, hlater, rfl⟩ :=
            (splitFrom_run_eq_ok_iff hlt ht hkind steps statements).mp h
          obtain ⟨hdelimited, rfl, hafter, hend⟩ :=
            delimited_of_resolve ht hkind hlt hstop hresolve
          exact (ih hend (by omega) hlater).cons hdelimited hend

/-- Once there are enough steps to reach the end, their number is no matter. -/
theorem splitFrom_congr_steps
    {stop index steps steps' : Nat} (hstop : stop ≤ tokens.size) (hindex : index ≤ stop)
    (hsteps : stop - index ≤ steps) (hsteps' : stop - index ≤ steps') :
    splitFrom tokens stop steps index = splitFrom tokens stop steps' index := by
  induction steps generalizing index steps' with
  | zero =>
      obtain rfl : index = stop := by omega
      rw [splitFrom_stop, splitFrom_stop]
  | succ steps ih =>
      rcases Nat.eq_or_lt_of_le hindex with rfl | hlt
      · rw [splitFrom_stop, splitFrom_stop]
      · obtain ⟨more, rfl⟩ : ∃ more, steps' = more + 1 := ⟨steps' - 1, by omega⟩
        have ht : tokens[index]? = some tokens[index] := Array.getElem?_eq_getElem (by omega)
        by_cases hkind : tokens[index].kind = .punctuation .semicolon
        · have hmark := kindAt_eq_some_iff.mpr ⟨_, ht, hkind⟩
          rw [splitFrom_stray hlt hmark, splitFrom_stray hlt hmark]
          exact ih hlt (by omega) (by omega)
        · rw [splitFrom_run hlt ht hkind, splitFrom_run hlt ht hkind]
          cases hresolve : resolve tokens ⟨index, stop⟩ tokens[index] with
          | error e => rfl
          | ok statement =>
              obtain ⟨-, -, hafter, hend⟩ :=
                delimited_of_resolve ht hkind hlt hstop hresolve
              dsimp only [Except.bind]
              rw [ih hend (by omega) (by omega : stop - statement.scope.stop ≤ more)]

/-- What is split up to some end is found again on the way to a later end, and the rest of the way
is split on its own. -/
theorem splitFrom_append
    {middle stop index few steps : Nat} (hstop : stop ≤ tokens.size) (hmiddle : middle ≤ stop)
    (hindex : index ≤ middle) (hfew : middle - index ≤ few) (hsteps : stop - index ≤ steps)
    (h : splitFrom tokens middle few index = .ok statements) :
    splitFrom tokens stop steps index =
      (splitFrom tokens stop (stop - middle) middle).map (statements ++ ·) := by
  have hdone : ∀ {steps}, stop - middle ≤ steps → splitFrom tokens stop steps middle =
      (splitFrom tokens stop (stop - middle) middle).map ([] ++ ·) := by
    intro steps hsteps
    rw [splitFrom_congr_steps hstop hmiddle hsteps (Nat.le_refl _)]
    cases splitFrom tokens stop (stop - middle) middle <;> rfl
  induction few generalizing index statements steps with
  | zero =>
      obtain rfl : index = middle := by omega
      cases h
      exact hdone hsteps
  | succ few ih =>
      rcases Nat.eq_or_lt_of_le hindex with rfl | hlt
      · rw [splitFrom_stop] at h
        cases h
        exact hdone hsteps
      · have hlt' : index < stop := Nat.lt_of_lt_of_le hlt hmiddle
        obtain ⟨more, rfl⟩ : ∃ more, steps = more + 1 := ⟨steps - 1, by omega⟩
        have ht : tokens[index]? = some tokens[index] := Array.getElem?_eq_getElem (by omega)
        by_cases hkind : tokens[index].kind = .punctuation .semicolon
        · have hmark := kindAt_eq_some_iff.mpr ⟨_, ht, hkind⟩
          rw [splitFrom_stray hlt hmark] at h
          rw [splitFrom_stray hlt' hmark]
          exact ih hlt (by omega) (by omega) h
        · obtain ⟨statement, later, hresolve, hlater, rfl⟩ :=
            (splitFrom_run_eq_ok_iff hlt ht hkind few statements).mp h
          obtain ⟨-, -, hafter, hend⟩ :=
            delimited_of_resolve ht hkind hlt (by omega) hresolve
          rw [splitFrom_run hlt' ht hkind, resolve_of_le hresolve hmiddle]
          dsimp only [Except.bind]
          rw [ih hend (by omega) (by omega) hlater]
          cases splitFrom tokens stop (stop - middle) middle <;> rfl

/-- The statements of a range that is split divide it up, and every longer range is split into
these statements and then into what the tokens behind them are split into. -/
theorem partitions_and_splits_of_split
    (tokens : Array Token) (range : TokenRange) (hrange : range.Within tokens)
    (statements : List Statement) (h : split tokens range = .ok statements) :
    Partitions tokens range statements ∧
      ∀ stop, range.stop ≤ stop → stop ≤ tokens.size →
        split tokens ⟨range.start, stop⟩ =
          (split tokens ⟨range.stop, stop⟩).map (statements ++ ·) := by
  refine ⟨partitions_of_splitFrom hrange.stop_le hrange.start_le (Nat.le_refl _) h, ?_⟩
  intro stop hmiddle hstop
  exact splitFrom_append hstop hmiddle hrange.start_le (Nat.le_refl _) (Nat.le_refl _) h

/-- The semicolon in the block ends nothing, and the condition behind it follows in a longer
range. -/
theorem partitions_and_splits_of_split_sample :
    Partitions sampleStatements ⟨0, 5⟩ [⟨.value, ⟨1, 4⟩, ⟨1, 5⟩⟩] ∧
      split sampleStatements ⟨0, 10⟩ =
        .ok [⟨.value, ⟨1, 4⟩, ⟨1, 5⟩⟩, ⟨.directive .ifThen, ⟨5, 9⟩, ⟨5, 10⟩⟩] := by
  obtain ⟨hpartitions, hlonger⟩ := partitions_and_splits_of_split sampleStatements ⟨0, 5⟩
    ⟨by decide, by decide⟩ [⟨.value, ⟨1, 4⟩, ⟨1, 5⟩⟩] rfl
  exact ⟨hpartitions, (hlonger 10 (by decide) (by decide)).trans rfl⟩

end Statement

end ExprFront
