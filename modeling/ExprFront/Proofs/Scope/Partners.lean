import ExprFront.Proofs.Scope.Closing

/-!
# Partners of brackets

Balanced segments can be cancelled: if two of them start at one place, what the
longer one has behind the shorter one is balanced as well. So a bracket that
opens within a balanced segment closes within it, and before any place at most
one bracket is the innermost that is open.

A closing bracket is partnered if the innermost open bracket is of its kind.
`Leaves` says which brackets a segment leaves open; it is the invariant of a
walk, and it tells from the brackets that are pending whether the next closing
bracket is partnered.
-/

namespace ExprFront

variable {tokens : Array Token}

/-! ## Marks of brackets -/

section Marks

variable {b b' : Bracket} {index : Nat}

theorem bracket_eq_of_opening
    (h : kindAt tokens index = some (.punctuation b.opening))
    (h' : kindAt tokens index = some (.punctuation b'.opening)) : b = b' := by
  have heq := Option.some.inj (h.symm.trans h')
  have hopens := TokenKind.opens_eq_some_iff.mpr heq
  rw [TokenKind.opens_eq_some_iff.mpr rfl] at hopens
  exact Option.some.inj hopens

theorem bracket_eq_of_closing
    (h : kindAt tokens index = some (.punctuation b.closing))
    (h' : kindAt tokens index = some (.punctuation b'.closing)) : b = b' := by
  have heq := Option.some.inj (h.symm.trans h')
  have hcloses := TokenKind.closes_eq_some_iff.mpr heq
  rw [TokenKind.closes_eq_some_iff.mpr rfl] at hcloses
  exact Option.some.inj hcloses

theorem not_opening_of_opens
    {k : TokenKind} (h : kindAt tokens index = some k) (hopens : k.opens = none) :
    kindAt tokens index ≠ some (.punctuation b.opening) := by
  intro h'
  rw [Option.some.inj (h.symm.trans h'), TokenKind.opens_eq_some_iff.mpr rfl] at hopens
  cases hopens

theorem not_opening_of_closing
    (h : kindAt tokens index = some (.punctuation b.closing)) :
    kindAt tokens index ≠ some (.punctuation b'.opening) :=
  not_opening_of_opens h
    (TokenKind.opens_eq_none_of_closes (TokenKind.closes_eq_some_iff.mpr rfl))

end Marks

/-! ## Cancelling balanced segments -/

namespace Balanced

variable {free free' : TokenKind → Prop} {start middle stop : Nat}

theorem congr
    {others : Array Token} (h : Balanced tokens free start stop)
    (heq : ∀ i, start ≤ i → i < stop → others[i]? = tokens[i]?) :
    Balanced others free start stop := by
  induction h with
  | empty => exact .empty _ _
  | @single _ start stop k hkind hopens hcloses hfree hrest ih =>
      have hle := hrest.le
      rw [kindAt, ← heq start (Nat.le_refl _) hle, ← kindAt] at hkind
      exact .single hkind hopens hcloses hfree
        (ih fun i hlow hhigh => heq i (Nat.le_of_succ_le hlow) hhigh)
  | @nested _ start middle stop b hopening hinner hclosing hrest ihInner ihRest =>
      have hlow := hinner.le
      have hhigh := hrest.le
      rw [kindAt, ← heq start (Nat.le_refl _) (by omega), ← kindAt] at hopening
      rw [kindAt, ← heq middle (by omega) hhigh, ← kindAt] at hclosing
      exact .nested hopening (ihInner fun i _ _ => heq i (by omega) (by omega)) hclosing
        (ihRest fun i _ _ => heq i (by omega) (by omega))

/-- A bracket closes at one place only. -/
theorem middle_unique
    {b : Bracket} {other : Nat}
    (hopening : kindAt tokens start = some (.punctuation b.opening))
    (h : Balanced tokens (fun _ => True) (start + 1) middle)
    (hclosing : kindAt tokens middle = some (.punctuation b.closing))
    (h' : Balanced tokens (fun _ => True) (start + 1) other)
    (hclosing' : kindAt tokens other = some (.punctuation b.closing)) : middle = other := by
  have hfirst := Scope.matching_of_balanced hopening h hclosing
    (by omega : middle < max middle other + 1)
  have hsecond := Scope.matching_of_balanced hopening h' hclosing'
    (by omega : other < max middle other + 1)
  cases hfirst.symm.trans hsecond
  rfl

theorem cancel
    (h : Balanced tokens free start middle) (h' : Balanced tokens free' start stop)
    (hle : middle ≤ stop) : Balanced tokens free' middle stop := by
  induction h with
  | empty => exact h'
  | @single _ start middle k hkind hopens hcloses _ hrest ih =>
      cases h' with
      | empty => exact absurd hrest.le (by omega)
      | single _ _ _ _ hrest' => exact ih hrest' hle
      | nested hopening => exact absurd hopening (not_opening_of_opens hkind hopens)
  | @nested _ start inner middle b hopening hinner hclosing hrest _ ih =>
      cases h' with
      | empty =>
          have := hinner.le
          have := hrest.le
          omega
      | single hkind hopens => exact absurd hopening (not_opening_of_opens hkind hopens)
      | @nested _ _ inner' _ b' hopening' hinner' hclosing' hrest' =>
          obtain rfl := bracket_eq_of_opening hopening hopening'
          obtain rfl := middle_unique hopening hinner hclosing hinner' hclosing'
          exact ih hrest' hle

/-- A bracket that opens within a balanced segment closes within it. -/
theorem exists_closing
    (h : Balanced tokens free start stop) {opening : Nat} {b : Bracket} (hlow : start ≤ opening)
    (hhigh : opening < stop)
    (hopening : kindAt tokens opening = some (.punctuation b.opening)) :
    ∃ closing, closing < stop ∧ Balanced tokens (fun _ => True) (opening + 1) closing ∧
      kindAt tokens closing = some (.punctuation b.closing) := by
  induction h with
  | empty => omega
  | @single _ start stop k hkind hopens _ _ _ ih =>
      rcases Nat.eq_or_lt_of_le hlow with rfl | hlow
      · exact absurd hopening (not_opening_of_opens hkind hopens)
      · exact ih hlow hhigh
  | @nested _ start middle stop b' hfirst hinner hlast hrest ihInner ihRest =>
      have hle := hrest.le
      rcases Nat.eq_or_lt_of_le hlow with rfl | hlow
      · obtain rfl := bracket_eq_of_opening hfirst hopening
        exact ⟨middle, hle, hinner, hlast⟩
      · rcases Nat.lt_trichotomy opening middle with hinside | rfl | hbehind
        · obtain ⟨closing, hlt, hclosing⟩ := ihInner hlow hinside
          exact ⟨closing, by omega, hclosing⟩
        · exact absurd hopening (not_opening_of_closing hlast)
        · exact ihRest hbehind hhigh

end Balanced

/-! ## The innermost open bracket -/

/-- The bracket that opens at `opening` is the innermost one that is open before `index`. -/
structure Innermost (tokens : Array Token) (b : Bracket) (opening index : Nat) : Prop where
  opens : kindAt tokens opening = some (.punctuation b.opening)
  balanced : Balanced tokens (fun _ => True) (opening + 1) index

namespace Innermost

variable {b b' : Bracket} {opening opening' index : Nat}

theorem lt (h : Innermost tokens b opening index) : opening < index := h.balanced.le

/-- No bracket of a balanced segment is open at its end. -/
theorem not_of_balanced
    {free : TokenKind → Prop} {start : Nat} (h : Balanced tokens free start index)
    (hlow : start ≤ opening) : ¬ Innermost tokens b opening index := by
  intro hinnermost
  obtain ⟨closing, hlt, hinner, hclosing⟩ := h.exists_closing hlow hinnermost.lt hinnermost.opens
  have hrest := hinner.cancel hinnermost.balanced (Nat.le_of_lt hlt)
  obtain ⟨k, hkind, hcloses, -⟩ := hrest.exists_first hlt
  cases hkind.symm.trans hclosing
  rw [TokenKind.closes_eq_some_iff.mpr rfl] at hcloses
  cases hcloses

theorem unique
    (h : Innermost tokens b opening index) (h' : Innermost tokens b' opening' index) :
    opening = opening' ∧ b = b' := by
  have heq : opening = opening' := by
    rcases Nat.lt_trichotomy opening opening' with hlt | heq | hlt
    · exact absurd h' (not_of_balanced h.balanced hlt)
    · exact heq
    · exact absurd h (not_of_balanced h'.balanced hlt)
  subst heq
  exact ⟨rfl, bracket_eq_of_opening h.opens h'.opens⟩

end Innermost

/-- The closing bracket at an index has a partner: the innermost bracket that opens at `first` or
later and is open before it is of its kind. -/
def Partnered (tokens : Array Token) (first index : Nat) : Prop :=
  ∃ b opening, first ≤ opening ∧ Innermost tokens b opening index ∧
    kindAt tokens index = some (.punctuation b.closing)

/-! ## Brackets that are left open -/

/-- The tokens from `first` to `index` leave the pending brackets open, the innermost first. -/
def Leaves (tokens : Array Token) (first : Nat) : (pending : List Token) → (index : Nat) → Prop
  | [], index => Balanced tokens (fun _ => True) first index
  | top :: pending, index =>
      ∃ b opening, first ≤ opening ∧ tokens[opening]? = some top ∧
        Innermost tokens b opening index ∧ Leaves tokens first pending opening

namespace Leaves

variable {first index : Nat} {pending after : List Token} {t : Token}

theorem extend
    (h : Leaves tokens first pending index) {later : Nat}
    (hbalanced : Balanced tokens (fun _ => True) index later) :
    Leaves tokens first pending later := by
  cases pending with
  | nil => exact Balanced.trans h hbalanced
  | cons top pending =>
      obtain ⟨b, opening, hfirst, htop, hinnermost, hrest⟩ := h
      exact ⟨b, opening, hfirst, htop, ⟨hinnermost.opens, hinnermost.balanced.trans hbalanced⟩,
        hrest⟩

theorem le
    (h : Leaves tokens first pending index) : first ≤ index := by
  cases pending with
  | nil => exact Balanced.le h
  | cons top pending =>
      obtain ⟨b, opening, hfirst, -, hinnermost, -⟩ := h
      have := hinnermost.lt
      omega

/-- A token that passes changes the brackets that are left open as it changes the pending ones. -/
theorem step
    (h : Leaves tokens first pending index) (ht : tokens[index]? = some t)
    (hpasses : Passes (fun _ => True) pending t after) :
    Leaves tokens first after (index + 1) := by
  have hkind : kindAt tokens index = some t.kind := kindAt_eq_some_iff.mpr ⟨t, ht, rfl⟩
  cases hpasses with
  | single hopens hcloses => exact h.extend (.of_kindAt hkind hopens hcloses trivial)
  | @opening _ _ b hopens =>
      rw [TokenKind.opens_eq_some_iff.mp hopens] at hkind
      exact ⟨b, index, h.le, ht, ⟨hkind, .empty _ _⟩, h⟩
  | @closing _ top _ b htop hcloses =>
      rw [TokenKind.closes_eq_some_iff.mp hcloses] at hkind
      obtain ⟨b', opening, hfirst, htoken, hinnermost, hrest⟩ := h
      have hopening : kindAt tokens opening = some (.punctuation b.opening) :=
        kindAt_eq_some_iff.mpr ⟨top, htoken, TokenKind.opens_eq_some_iff.mp htop⟩
      exact hrest.extend (.of_pair hopening hinnermost.balanced hkind)

/-- A closing bracket is partnered exactly if the first of the pending brackets is of its kind. -/
theorem partnered_iff
    (h : Leaves tokens first pending index) {b : Bracket}
    (hclosing : kindAt tokens index = some (.punctuation b.closing)) :
    Partnered tokens first index ↔
      ∃ top below, pending = top :: below ∧ top.kind = .punctuation b.opening := by
  constructor
  · rintro ⟨b', opening, hfirst, hinnermost, hclosing'⟩
    obtain rfl := bracket_eq_of_closing hclosing hclosing'
    cases pending with
    | nil => exact absurd hinnermost (Innermost.not_of_balanced h hfirst)
    | cons top below =>
        obtain ⟨b', opening', -, htop, hinnermost', -⟩ := h
        obtain ⟨rfl, rfl⟩ := hinnermost.unique hinnermost'
        obtain ⟨t, ht, hkind⟩ := kindAt_eq_some_iff.mp hinnermost.opens
        cases ht.symm.trans htop
        exact ⟨_, below, rfl, hkind⟩
  · rintro ⟨top, below, rfl, hkind⟩
    obtain ⟨b', opening, hfirst, htop, hinnermost, -⟩ := h
    have hopening : kindAt tokens opening = some (.punctuation b.opening) :=
      kindAt_eq_some_iff.mpr ⟨top, htop, hkind⟩
    exact ⟨b, opening, hfirst, ⟨hopening, hinnermost.balanced⟩, hclosing⟩

/-- Every token passes that is no closing bracket, or one with a partner. -/
theorem exists_passes
    (h : Leaves tokens first pending index) (ht : tokens[index]? = some t)
    (hpartnered : ∀ b : Bracket, kindAt tokens index = some (.punctuation b.closing) →
      Partnered tokens first index) :
    ∃ after, Passes (fun _ => True) pending t after := by
  cases hopens : t.kind.opens with
  | some b => exact ⟨_, .opening hopens⟩
  | none =>
      cases hcloses : t.kind.closes with
      | none => exact ⟨_, .single hopens hcloses fun _ => trivial⟩
      | some b =>
          have hclosing : kindAt tokens index = some (.punctuation b.closing) :=
            kindAt_eq_some_iff.mpr ⟨t, ht, TokenKind.closes_eq_some_iff.mp hcloses⟩
          obtain ⟨top, below, rfl, hkind⟩ := (h.partnered_iff hclosing).mp (hpartnered b hclosing)
          exact ⟨below, .closing (TokenKind.opens_eq_some_iff.mpr hkind) hcloses⟩

end Leaves

end ExprFront
