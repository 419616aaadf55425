import ExprFront.Fault
import ExprFront.Proofs.Scope.Balance
import ExprFront.Statement

/-!
# Within the tokens

A resolved scope has two delimiters and lies within the tokens; its parts lie
between the delimiters, and so do the statements of a range within the range.
The end of a scope and the start of a part can thus be stepped back from.

`Guarded` has the loops that look at one token after the other, with a fault
where an index is outside the tokens or the bound on the number of steps is too
small. Within the tokens these are the loops of the library.
-/

namespace ExprFront

/-- The range lies within the tokens. -/
structure TokenRange.Within (range : TokenRange) (tokens : Array Token) : Prop where
  start_le : range.start ≤ range.stop
  stop_le : range.stop ≤ tokens.size

/-! ## Parts -/

/-- The parts of a split start where the first does or later, and end where the last does or
before. -/
theorem bounds_of_splitFrom
    {tokens : Array Token} {separator : Punctuation} {stop steps first index : Nat}
    {parts : List TokenRange} (hfirst : first ≤ index) (hindex : index ≤ stop)
    (h : splitFrom tokens separator stop steps first index = .ok parts) :
    ∀ part ∈ parts, first ≤ part.start ∧ part.start ≤ part.stop ∧ part.stop ≤ stop := by
  have hlast : ∀ part ∈ [(⟨first, stop⟩ : TokenRange)],
      first ≤ part.start ∧ part.start ≤ part.stop ∧ part.stop ≤ stop := by
    intro part hpart
    rw [List.mem_singleton.mp hpart]
    exact ⟨Nat.le_refl _, Nat.le_trans hfirst hindex, Nat.le_refl _⟩
  induction steps generalizing first index parts with
  | zero =>
      cases h
      exact hlast
  | succ steps ih =>
      rw [splitFrom] at h
      split at h
      · cases h
        exact hlast
      · split at h
        · cases h
          exact hlast
        · split at h
          · split at h
            · rename_i inner hinner
              have hbounds := Scope.bounds_of_matching hinner
              exact ih (by omega) (by omega) h hlast
            · cases h
          · split at h
            · split at h
              · rename_i later hlater
                cases h
                have hmore := ih (Nat.le_refl _) (by omega) hlater (by simp; omega)
                refine List.forall_mem_cons.mpr ⟨⟨Nat.le_refl _, hfirst, hindex⟩, ?_⟩
                intro part hpart
                have := hmore part hpart
                omega
              · cases h
            · exact ih (by omega) (by omega) h hlast

/-- A bracket scope lies within the tokens, and its parts between its delimiters. -/
structure Separated.Within (s : Separated) (tokens : Array Token) : Prop where
  length_ge : s.scope.start + 2 ≤ s.scope.stop
  stop_le : s.scope.stop ≤ tokens.size
  parts : ∀ part ∈ s.parts,
    s.scope.start < part.start ∧ part.start ≤ part.stop ∧ part.stop < s.scope.stop

theorem Separated.within_of_resolve
    {tokens : Array Token} {range : TokenRange} {b : Bracket} {separator : Punctuation}
    {s : Separated} (h : Separated.resolve tokens range b separator = .ok s) :
    s.Within tokens ∧ s.scope.start = range.start ∧ s.scope.stop ≤ range.stop := by
  unfold resolve at h
  split at h
  · rename_i scope hscope
    obtain ⟨hstart, hlength, hstop, hsize⟩ := Scope.bounds_of_matching hscope
    split at h
    · rename_i parts hparts
      cases h
      refine ⟨⟨by dsimp only; omega, hsize, ?_⟩, hstart, hstop⟩
      unfold splitParts at hparts
      split at hparts
      · cases hparts
        simp
      · have hbounds := bounds_of_splitFrom (Nat.le_refl _) (by simp [Scope.interior]; omega) hparts
        intro part hpart
        have := hbounds part hpart
        simp only [Scope.interior] at this
        dsimp only
        omega
    · cases h
  · cases h

theorem Separated.matching_of_resolve
    {tokens : Array Token} {range : TokenRange} {b : Bracket} {separator : Punctuation}
    {s : Separated} (h : Separated.resolve tokens range b separator = .ok s) :
    Scope.matching tokens range b = .ok s.scope := by
  unfold resolve at h
  split at h
  · rename_i scope hscope
    split at h
    · cases h
      exact hscope
    · cases h
  · cases h

/-! ## Statements -/

/-- The statement ends with one token more than its range, within the tokens. -/
structure Statement.Within (statement : Statement) (tokens : Array Token) (range : TokenRange) :
    Prop where
  start_ge : range.start ≤ statement.scope.start
  length_ge : statement.scope.start + 2 ≤ statement.scope.stop
  stop_le : statement.scope.stop ≤ range.stop
  size_ge : statement.scope.stop ≤ tokens.size
  range_eq : statement.range = ⟨statement.scope.start, statement.scope.stop - 1⟩

theorem Statement.within_of_scope
    {shape : ScopeShape} {tokens : Array Token} {range : TokenRange} {kind : StatementKind}
    {statement : Statement}
    (h : (shape.resolve tokens range).map
      (fun scope => (⟨kind, ⟨scope.start, scope.stop - 1⟩, scope⟩ : Statement)) = .ok statement) :
    statement.Within tokens range := by
  cases hscope : shape.resolve tokens range with
  | error e =>
      rw [hscope] at h
      cases h
  | ok scope =>
      rw [hscope] at h
      cases h
      have hbounds := shape.resolve_bounds tokens range scope hscope
      exact ⟨Nat.le_of_eq hbounds.1.symm, hbounds.2.1, by dsimp only; omega, by dsimp only; omega,
        rfl⟩

theorem Statement.within_of_resolve
    {tokens : Array Token} {range : TokenRange} {first : Token} {statement : Statement}
    (h : Statement.resolve tokens range first = .ok statement) :
    statement.Within tokens range := by
  unfold Statement.resolve at h
  dsimp only at h
  split at h
  · exact within_of_scope h
  · exact within_of_scope h

theorem Statement.within_of_splitFrom
    {tokens : Array Token} {stop steps index : Nat} {statements : List Statement}
    (h : Statement.splitFrom tokens stop steps index = .ok statements) :
    ∀ statement ∈ statements, statement.Within tokens ⟨index, stop⟩ := by
  induction steps generalizing index statements with
  | zero =>
      cases h
      simp
  | succ steps ih =>
      rw [Statement.splitFrom] at h
      split at h
      · cases h
        simp
      · split at h
        · cases h
          simp
        · split at h
          · intro statement hmem
            have hlater := ih h statement hmem
            exact { hlater with start_ge := Nat.le_of_succ_le hlater.start_ge }
          · split at h
            · cases h
            · rename_i statement hresolve
              have hfirst := within_of_resolve hresolve
              split at h
              · rename_i later hsplit
                cases h
                refine List.forall_mem_cons.mpr ⟨hfirst, fun other hmem => ?_⟩
                have hlater := ih hsplit other hmem
                have hstart := hlater.start_ge
                have hlength := hfirst.length_ge
                have hindex := hfirst.start_ge
                dsimp only at hstart hindex
                exact { hlater with start_ge := by dsimp only; omega }
              · cases h

/-- The statements of a range lie within the range and the tokens. -/
theorem Statement.within_of_split
    {tokens : Array Token} {range : TokenRange} {statements : List Statement}
    (h : Statement.split tokens range = .ok statements) :
    ∀ statement ∈ statements, statement.Within tokens range :=
  within_of_splitFrom h

theorem Statement.Within.range_within
    {statement : Statement} {tokens : Array Token} {range : TokenRange}
    (h : statement.Within tokens range) : statement.range.Within tokens := by
  have hlength := h.length_ge
  have hsize := h.size_ge
  rw [h.range_eq]
  exact ⟨by dsimp only; omega, by dsimp only; omega⟩

/-! ## Guarded loops -/

namespace Guarded

/-- The token at an index, which has to be one. -/
def token (tokens : Array Token) (index : Nat) : Except Fault Token :=
  match tokens[index]? with
  | some t => .ok t
  | none => .error (.missingToken index)

theorem exists_token
    {tokens : Array Token} {index : Nat} (hindex : index < tokens.size) :
    ∃ t, tokens[index]? = some t ∧ token tokens index = .ok t := by
  have hsome := Array.getElem?_eq_getElem hindex
  exact ⟨_, hsome, by rw [token, hsome]⟩

/-- The parts of the tokens up to `stop`. -/
def splitFrom (tokens : Array Token) (separator : Punctuation) (stop : Nat) :
    (steps first index : Nat) → Except Fault (Except ScopeError (List TokenRange))
  | 0, first, index => if stop ≤ index then .ok (.ok [⟨first, stop⟩]) else .error .exhausted
  | steps + 1, first, index =>
      if stop ≤ index then .ok (.ok [⟨first, stop⟩])
      else do
        let t ← token tokens index
        match t.kind.opens with
        | some b =>
            match Scope.matching tokens ⟨index, stop⟩ b with
            | .ok inner => splitFrom tokens separator stop steps first inner.stop
            | .error e => .ok (.error e)
        | none =>
            if t.isPunctuation separator then
              (splitFrom tokens separator stop steps (index + 1) (index + 1)).map
                (Except.map (⟨first, index⟩ :: ·))
            else splitFrom tokens separator stop steps first (index + 1)

/-- The bracket scope at the start of the range together with its parts. -/
def separated
    (tokens : Array Token) (range : TokenRange) (b : Bracket) (separator : Punctuation) :
    Except Fault (Except ScopeError Separated) :=
  match Scope.matching tokens range b with
  | .error e => .ok (.error e)
  | .ok scope =>
      let interior := scope.interior
      if interior.isEmpty then .ok (.ok ⟨scope, []⟩)
      else
        (splitFrom tokens separator interior.stop interior.length interior.start
          interior.start).map (Except.map (⟨scope, ·⟩))

/-- The statements of the tokens from `index` to `stop`. -/
def statementsFrom (tokens : Array Token) (stop : Nat) :
    (steps index : Nat) → Except Fault (Except ScopeError (List Statement))
  | 0, index => if stop ≤ index then .ok (.ok []) else .error .exhausted
  | steps + 1, index =>
      if stop ≤ index then .ok (.ok [])
      else do
        let t ← token tokens index
        if t.isPunctuation .semicolon then statementsFrom tokens stop steps (index + 1)
        else match Statement.resolve tokens ⟨index, stop⟩ t with
          | .error e => .ok (.error e)
          | .ok statement =>
              (statementsFrom tokens stop steps statement.scope.stop).map
                (Except.map (statement :: ·))

theorem splitFrom_eq
    {tokens : Array Token} {separator : Punctuation} {stop steps first index : Nat}
    (hstop : stop ≤ tokens.size) (hsteps : stop - index ≤ steps) :
    splitFrom tokens separator stop steps first index =
      .ok (ExprFront.splitFrom tokens separator stop steps first index) := by
  induction steps generalizing first index with
  | zero => rw [splitFrom, ExprFront.splitFrom, if_pos (by omega)]
  | succ steps ih =>
      rw [splitFrom, ExprFront.splitFrom]
      split
      · rfl
      · obtain ⟨t, hsome, htoken⟩ := exists_token (by omega : index < tokens.size)
        simp only [hsome, htoken, bind, Except.bind]
        cases t.kind.opens with
        | some b =>
            dsimp only
            cases hinner : Scope.matching tokens ⟨index, stop⟩ b with
            | error e => rfl
            | ok inner =>
                have hbounds := Scope.bounds_of_matching hinner
                exact ih (by omega)
        | none =>
            dsimp only
            split
            · rw [ih (by omega)]
              cases ExprFront.splitFrom tokens separator stop steps (index + 1) (index + 1) <;> rfl
            · exact ih (by omega)

/-- A bracket scope is split without a fault, wherever it is sought. -/
theorem separated_eq
    (tokens : Array Token) (range : TokenRange) (b : Bracket) (separator : Punctuation) :
    separated tokens range b separator = .ok (Separated.resolve tokens range b separator) := by
  unfold separated Separated.resolve
  cases hscope : Scope.matching tokens range b with
  | error e => rfl
  | ok scope =>
      have hbounds := Scope.bounds_of_matching hscope
      unfold splitParts
      dsimp only
      split
      · rfl
      · have hstop : scope.interior.stop ≤ tokens.size := by
          simp only [Scope.interior]
          omega
        have hsteps :
            scope.interior.stop - scope.interior.start ≤ scope.interior.length := Nat.le_refl _
        rw [splitFrom_eq hstop hsteps]
        cases ExprFront.splitFrom tokens separator scope.interior.stop scope.interior.length
          scope.interior.start scope.interior.start <;> rfl

theorem statementsFrom_eq
    {tokens : Array Token} {stop steps index : Nat} (hstop : stop ≤ tokens.size)
    (hsteps : stop - index ≤ steps) :
    statementsFrom tokens stop steps index = .ok (Statement.splitFrom tokens stop steps index) := by
  induction steps generalizing index with
  | zero => rw [statementsFrom, Statement.splitFrom, if_pos (by omega)]
  | succ steps ih =>
      rw [statementsFrom, Statement.splitFrom]
      split
      · rfl
      · obtain ⟨t, hsome, htoken⟩ := exists_token (by omega : index < tokens.size)
        simp only [hsome, htoken, bind, Except.bind]
        split
        · exact ih (by omega)
        · cases hresolve : Statement.resolve tokens ⟨index, stop⟩ t with
          | error e => rfl
          | ok statement =>
              have hwithin := Statement.within_of_resolve hresolve
              have hstart := hwithin.start_ge
              have hlength := hwithin.length_ge
              dsimp only at hstart
              dsimp only
              rw [ih (by omega)]
              cases Statement.splitFrom tokens stop steps statement.scope.stop <;> rfl

end Guarded

end ExprFront
