import ExprFront.Proofs.Scope.Bounds

/-!
# Windows on the tokens

A window shows some of the tokens as an excerpt that starts from index zero. A
scope that is sought within the window is found in the tokens exactly as it is
found in the excerpt, but for the offset of all indices; an error is the same,
since it keeps the tokens that it points at and no index.
-/

namespace ExprFront

/-! ## Moved ranges and scopes -/

/-- The range that starts and ends so many tokens later. -/
def TokenRange.moved (offset : Nat) (range : TokenRange) : TokenRange :=
  ⟨offset + range.start, offset + range.stop⟩

namespace TokenRange

variable (offset : Nat) (range : TokenRange)

@[simp] theorem start_moved : (range.moved offset).start = offset + range.start := rfl

@[simp] theorem stop_moved : (range.moved offset).stop = offset + range.stop := rfl

@[simp] theorem length_moved : (range.moved offset).length = range.length := by
  simp only [length, start_moved, stop_moved]
  omega

@[simp] theorem isEmpty_moved : (range.moved offset).isEmpty = range.isEmpty := by
  simp [isEmpty]

@[simp] theorem moved_zero : range.moved 0 = range := by
  simp [moved]

end TokenRange

/-- The scope that starts and ends so many tokens later. -/
def Scope.moved (offset : Nat) (s : Scope) : Scope := ⟨offset + s.start, offset + s.stop⟩

@[simp] theorem Scope.start_moved (offset : Nat) (s : Scope) :
    (s.moved offset).start = offset + s.start := rfl

@[simp] theorem Scope.stop_moved (offset : Nat) (s : Scope) :
    (s.moved offset).stop = offset + s.stop := rfl

@[simp] theorem Scope.range_moved (offset : Nat) (s : Scope) :
    (s.moved offset).range = s.range.moved offset := rfl

theorem Scope.interior_moved
    {s : Scope} (hstop : 0 < s.stop) (offset : Nat) :
    (s.moved offset).interior = s.interior.moved offset := by
  simp only [interior, moved, TokenRange.moved, TokenRange.mk.injEq]
  omega

/-- The bracket scope and its parts that start and end so many tokens later. -/
def Separated.moved (offset : Nat) (s : Separated) : Separated :=
  ⟨s.scope.moved offset, s.parts.map (TokenRange.moved offset)⟩

/-! ## Windows -/

/-- From `offset` on, the tokens are those of the excerpt, up to a bound. -/
structure Window (tokens excerpt : Array Token) (offset bound : Nat) : Prop where
  le_size : bound ≤ excerpt.size
  getElem?_eq : ∀ i < bound, tokens[offset + i]? = excerpt[i]?

namespace Window

variable {tokens excerpt : Array Token} {offset bound : Nat}

theorem refl (tokens : Array Token) : Window tokens tokens 0 tokens.size where
  le_size := Nat.le_refl _
  getElem?_eq i _ := by rw [Nat.zero_add]

theorem extract
    {range : TokenRange} (hrange : range.Within tokens) :
    Window tokens (tokens.extract range.start range.stop) range.start range.length where
  le_size := by
    have hstop := hrange.stop_le
    simp only [Array.size_extract, TokenRange.length]
    omega
  getElem?_eq i hi := by
    have hstop := hrange.stop_le
    simp only [TokenRange.length] at hi
    rw [Array.getElem?_extract, if_pos (by omega)]

variable (h : Window tokens excerpt offset bound)
include h

/-- A token in the window. -/
theorem exists_token
    {i : Nat} (hi : i < bound) : ∃ t, tokens[offset + i]? = some t ∧ excerpt[i]? = some t := by
  have hsize : i < excerpt.size := Nat.lt_of_lt_of_le hi h.le_size
  have hsome : excerpt[i]? = some excerpt[i] := Array.getElem?_eq_getElem hsize
  exact ⟨_, (h.getElem?_eq i hi).trans hsome, hsome⟩

theorem add_le_size
    {i : Nat} (hi : i ≤ bound) (hpos : 0 < i) : offset + i ≤ tokens.size := by
  obtain ⟨t, ht, -⟩ := h.exists_token (by omega : i - 1 < bound)
  have := (Array.getElem?_eq_some_iff.mp ht).1
  omega

theorem kindAt_eq
    {i : Nat} (hi : i < bound) : kindAt tokens (offset + i) = kindAt excerpt i := by
  rw [kindAt, kindAt, h.getElem?_eq i hi]

theorem spot_eq
    {i : Nat} (hi : i < bound) : Spot.ofIndex tokens (offset + i) = Spot.ofIndex excerpt i := by
  obtain ⟨t, ht, ht'⟩ := h.exists_token hi
  simp [Spot.ofIndex, ht, ht']

/-! ## Scopes in a window -/

theorem walk_eq
    (shape : ScopeShape) (opener : Token) {steps index : Nat} (hindex : index + steps ≤ bound)
    (pending : List Token) :
    shape.walk tokens opener steps (offset + index) pending =
      (shape.walk excerpt opener steps index pending).map (offset + ·) := by
  induction steps generalizing index pending with
  | zero => rfl
  | succ steps ih =>
      obtain ⟨t, ht, ht'⟩ := h.exists_token (by omega : index < bound)
      simp only [ScopeShape.walk, ht, ht']
      cases shape.step opener pending t with
      | closed => rfl
      | next after => exact ih (by omega : index + 1 + steps ≤ bound) after
      | failed e => rfl

theorem resolve_eq
    (shape : ScopeShape) (range : TokenRange) (hstart : range.start < range.stop)
    (hstop : range.stop ≤ bound) :
    shape.resolve tokens (range.moved offset) =
      (shape.resolve excerpt range).map (Scope.moved offset) := by
  obtain ⟨t, ht, ht'⟩ := h.exists_token (by omega : range.start < bound)
  have hsize := h.add_le_size hstop (by omega)
  have hexcerpt := h.le_size
  have hmin : min (offset + range.stop) tokens.size = offset + range.stop := by omega
  have hmin' : min range.stop excerpt.size = range.stop := by omega
  have hsteps : offset + range.stop - (offset + range.start + 1) =
      range.stop - (range.start + 1) := by omega
  have hspot := h.spot_eq (by omega : range.start < bound)
  simp only [ScopeShape.resolve, TokenRange.start_moved, TokenRange.stop_moved, ht, ht', hmin,
    hmin', hsteps, Nat.add_lt_add_iff_left]
  split
  · rw [Nat.add_assoc, h.walk_eq shape t (by omega)]
    cases shape.walk excerpt t (range.stop - (range.start + 1)) (range.start + 1)
      (shape.initial t) <;> rfl
  · simp only [ScopeShape.notAnOpener, hspot, Except.map]

theorem matching_eq
    (range : TokenRange) (hstart : range.start < range.stop) (hstop : range.stop ≤ bound)
    (b : Bracket) :
    Scope.matching tokens (range.moved offset) b =
      (Scope.matching excerpt range b).map (Scope.moved offset) :=
  h.resolve_eq (.bracket b) range hstart hstop

theorem splitFrom_eq
    (separator : Punctuation) {stop : Nat} (hstop : stop ≤ bound) (steps first index : Nat) :
    splitFrom tokens separator (offset + stop) steps (offset + first) (offset + index) =
      (splitFrom excerpt separator stop steps first index).map
        (List.map (TokenRange.moved offset)) := by
  induction steps generalizing first index with
  | zero => rfl
  | succ steps ih =>
      by_cases hindex : stop ≤ index
      · simp [splitFrom, hindex, Except.map, TokenRange.moved]
      obtain ⟨t, ht, ht'⟩ := h.exists_token (by omega : index < bound)
      simp only [splitFrom, Nat.add_le_add_iff_left, hindex, if_false, ht, ht']
      cases t.kind.opens with
      | some b =>
          have hmatching : Scope.matching tokens ⟨offset + index, offset + stop⟩ b =
              (Scope.matching excerpt ⟨index, stop⟩ b).map (Scope.moved offset) :=
            h.matching_eq ⟨index, stop⟩ (Nat.lt_of_not_le hindex) hstop b
          dsimp only
          rw [hmatching]
          cases Scope.matching excerpt ⟨index, stop⟩ b with
          | error e => rfl
          | ok inner => exact ih first inner.stop
      | none =>
          dsimp only
          split
          · rw [Nat.add_assoc, ih]
            cases splitFrom excerpt separator stop steps (index + 1) (index + 1) <;> rfl
          · exact ih first (index + 1)

theorem splitParts_eq
    {interior : TokenRange} (hstop : interior.stop ≤ bound) (separator : Punctuation) :
    splitParts tokens (interior.moved offset) separator =
      (splitParts excerpt interior separator).map (List.map (TokenRange.moved offset)) := by
  unfold splitParts
  rw [TokenRange.isEmpty_moved, TokenRange.length_moved]
  split
  · rfl
  · exact h.splitFrom_eq separator hstop _ _ _

theorem separated_eq
    (range : TokenRange) (hstart : range.start < range.stop) (hstop : range.stop ≤ bound)
    (b : Bracket) (separator : Punctuation) :
    Separated.resolve tokens (range.moved offset) b separator =
      (Separated.resolve excerpt range b separator).map (Separated.moved offset) := by
  unfold Separated.resolve
  rw [h.matching_eq range hstart hstop b]
  cases hscope : Scope.matching excerpt range b with
  | error e => rfl
  | ok scope =>
      have hbounds := Scope.bounds_of_matching hscope
      have hinner : scope.interior.stop ≤ bound := by
        simp only [Scope.interior]
        omega
      simp only [Except.map]
      rw [Scope.interior_moved (by omega), h.splitParts_eq hinner]
      cases splitParts excerpt scope.interior separator <;> rfl

end Window

end ExprFront
