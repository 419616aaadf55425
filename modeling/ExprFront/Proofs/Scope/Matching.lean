import ExprFront.Proofs.Scope.Bounds
import ExprFront.Proofs.Scope.Partners

/-!
# Exact matching of brackets

What becomes of a range that starts with an opening bracket is a matter of its
closing brackets alone. If all of them are partnered by brackets that open
inside, the bracket is never closed. Otherwise the first one that is not
partnered decides: it closes the bracket if it is of its kind and nothing is
open inside, and it is the place of the error if not.
-/

namespace ExprFront

variable {tokens : Array Token} {range : TokenRange} {b c : Bracket} {first index stop : Nat}

/-! ## Stray brackets -/

/-- Every closing bracket from `first` to `stop` has a partner. -/
def AllPartnered (tokens : Array Token) (first stop : Nat) : Prop :=
  ∀ index (c : Bracket), first ≤ index → index < stop →
    kindAt tokens index = some (.punctuation c.closing) → Partnered tokens first index

/-- The closing bracket at an index is the first one from `first` on that has no partner. -/
structure FirstStray (tokens : Array Token) (first index : Nat) (c : Bracket) : Prop where
  le : first ≤ index
  closes : kindAt tokens index = some (.punctuation c.closing)
  stray : ¬ Partnered tokens first index
  earlier : AllPartnered tokens first index

theorem exists_firstStray
    (h : ¬ AllPartnered tokens first stop) :
    ∃ index c, index < stop ∧ FirstStray tokens first index c := by
  induction stop with
  | zero => exact absurd (fun _ _ _ hindex => absurd hindex (Nat.not_lt_zero _)) h
  | succ stop ih =>
      by_cases hearlier : AllPartnered tokens first stop
      · unfold AllPartnered at h
        push Not at h
        obtain ⟨index, c, hfirst, hindex, hcloses, hstray⟩ := h
        rcases Nat.lt_succ_iff_lt_or_eq.mp hindex with hlt | rfl
        · exact absurd (hearlier index c hfirst hlt hcloses) hstray
        · exact ⟨index, c, hindex, hfirst, hcloses, hstray, hearlier⟩
      · obtain ⟨index, c, hindex, hfirst⟩ := ih hearlier
        exact ⟨index, c, Nat.lt_succ_of_lt hindex, hfirst⟩

theorem Partnered.mono
    {earlier : Nat} (hle : earlier ≤ first) (h : Partnered tokens first index) :
    Partnered tokens earlier index := by
  obtain ⟨c, opening, hfirst, hpartner⟩ := h
  exact ⟨c, opening, Nat.le_trans hle hfirst, hpartner⟩

/-! ## Walks -/

namespace ScopeShape

theorem frees_bracket (b : Bracket) : (bracket b).Frees (fun _ => True) where
  opening := by
    intro t inner hopens
    rw [bracket, Boundary.admits, Token.isPunctuation, TokenKind.opens_eq_some_iff.mp hopens]
    cases inner <;> cases b <;> rfl
  single := by
    intro t hopens hcloses
    have hclosing : t.isPunctuation b.closing = false := by
      rw [Token.isPunctuation, beq_eq_false_iff_ne]
      intro hkind
      simp [TokenKind.closes_eq_some_iff.mpr hkind] at hcloses
    have hopening : t.isPunctuation b.opening = false := by
      rw [Token.isPunctuation, beq_eq_false_iff_ne]
      intro hkind
      simp [TokenKind.opens_eq_some_iff.mpr hkind] at hopens
    simp [bracket, Boundary.admits, hclosing, hopening]

theorem admits_opening
    {t : Token} (hkind : t.kind = .punctuation b.opening) :
    (bracket b).opening.admits t = true := by
  simp [bracket, Boundary.admits, Token.isPunctuation, hkind]

theorem initial_bracket {t : Token} : (bracket b).initial t = [] := by
  simp [initial, bracket, ScopeRule.isStatement]

theorem admits_closing_iff
    {t : Token} (hkind : t.kind = .punctuation c.closing) :
    (bracket b).closing.admits t = true ↔ c = b := by
  rw [bracket, Boundary.admits, Token.isPunctuation, hkind]
  cases c <;> cases b <;> decide

/-- A walk passes over closing brackets that have partners, and it keeps which brackets are
open. -/
theorem walk_of_allPartnered
    (b : Bracket) (opener : Token) {pending : List Token} (steps more : Nat)
    (hsize : index + steps ≤ tokens.size) (hleaves : Leaves tokens first pending index)
    (hpartnered : AllPartnered tokens first (index + steps)) :
    ∃ after, Leaves tokens first after (index + steps) ∧
      (bracket b).walk tokens opener (steps + more) index pending =
        (bracket b).walk tokens opener more (index + steps) after := by
  induction steps generalizing index pending with
  | zero => exact ⟨pending, hleaves, by simp⟩
  | succ steps ih =>
      have hindex : index < tokens.size := by omega
      obtain ⟨t, ht⟩ : ∃ t, tokens[index]? = some t := ⟨_, Array.getElem?_eq_getElem hindex⟩
      obtain ⟨next, hpasses⟩ := hleaves.exists_passes ht
        fun c hcloses => hpartnered index c hleaves.le (by omega) hcloses
      have hsum : index + 1 + steps = index + (steps + 1) := by omega
      obtain ⟨after, hafter, hwalk⟩ := ih (by omega) (hleaves.step ht hpasses) (by rwa [hsum])
      rw [hsum] at hafter hwalk
      refine ⟨after, hafter, ?_⟩
      rw [Nat.add_right_comm, walk, ht]
      simp only [(step_eq_next_iff (frees_bracket b)).mpr hpasses]
      exact hwalk

theorem step_of_stray
    {opener top t : Token} {below : List Token} {inner : Bracket}
    (htop : top.kind = .punctuation inner.opening) (hkind : t.kind = .punctuation c.closing)
    (hne : inner ≠ c) :
    (bracket b).step opener (top :: below) t =
      .failed ((bracket b).errorAt
        (if c = b then .unclosedInner (.ofToken top) else .mismatched (.ofToken top)) t) := by
  have hcloses : t.kind.closes = some c := TokenKind.closes_eq_some_iff.mpr hkind
  have hopens : t.kind.opens = none := TokenKind.opens_eq_none_of_closes hcloses
  have htopOpens : top.kind.opens = some inner := TokenKind.opens_eq_some_iff.mpr htop
  have hadmits := admits_closing_iff (b := b) hkind
  by_cases heq : c = b
  · subst heq
    simp [step, stepCloser, hopens, hcloses, htopOpens, hne, hadmits.mpr rfl]
  · have hfalse : (bracket b).closing.admits t = false := by simpa [heq] using hadmits
    simp [step, stepCloser, hopens, hcloses, htopOpens, hne, heq, hfalse]

theorem step_of_foreign
    {opener t : Token} (hkind : t.kind = .punctuation c.closing) (hne : c ≠ b) :
    (bracket b).step opener [] t =
      .failed ((bracket b).errorAt (.mismatched (.ofToken opener)) t) := by
  have hcloses : t.kind.closes = some c := TokenKind.closes_eq_some_iff.mpr hkind
  have hopens : t.kind.opens = none := TokenKind.opens_eq_none_of_closes hcloses
  have hadmits : (bracket b).closing.admits t = false := by
    simpa [hne] using admits_closing_iff (b := b) hkind
  simp [step, stepCloser, hopens, hcloses, hadmits]

end ScopeShape

/-! ## Ranges -/

/-- The pair that opens a range is closed right before `stop`: its closing mark stands there, and
the tokens between the marks are balanced. -/
structure ClosedAt (tokens : Array Token) (range : TokenRange) (b : Bracket) (stop : Nat) :
    Prop where
  le : stop ≤ range.stop
  closing : kindAt tokens (stop - 1) = some (.punctuation b.closing)
  balanced : Balanced tokens (fun _ => True) (range.start + 1) (stop - 1)

/-- What is wrong with a closing bracket of kind `c` that does not match the innermost open
bracket. If it is of the kind of the scope, a bracket of another kind is open inside. -/
inductive StrayCause (tokens : Array Token) (range : TokenRange) (b : Bracket) (index : Nat) :
    (c : Bracket) → ScopeCause → Prop
  | unclosedInner {inner : Bracket} {opening : Nat} {top : Token} (hinside : range.start < opening)
      (hinnermost : Innermost tokens inner opening index) (htop : tokens[opening]? = some top)
      (hother : inner ≠ b) : StrayCause tokens range b index b (.unclosedInner (.ofToken top))
  | mismatched {c inner : Bracket} {opening : Nat} {top : Token} (hle : range.start ≤ opening)
      (hinnermost : Innermost tokens inner opening index) (htop : tokens[opening]? = some top)
      (hother : c ≠ b) : StrayCause tokens range b index c (.mismatched (.ofToken top))

/-- What matching gives for each range that starts with an opening bracket of kind `b`. -/
structure MatchesExactly (tokens : Array Token) (range : TokenRange) (b : Bracket) : Prop where
  ok_iff : ∀ scope, Scope.matching tokens range b = .ok scope ↔
    scope.start = range.start ∧ ClosedAt tokens range b scope.stop
  unique : ∀ stop stop', ClosedAt tokens range b stop → ClosedAt tokens range b stop' →
    stop = stop'
  unterminated_iff :
    (∃ e expected, Scope.matching tokens range b = .error e ∧ e.cause = .unterminated expected) ↔
      AllPartnered tokens (range.start + 1) range.stop
  stray : (∀ stop, ¬ ClosedAt tokens range b stop) →
    ¬ AllPartnered tokens (range.start + 1) range.stop →
    ∃ index c t cause, index < range.stop ∧ FirstStray tokens range.start index c ∧
      tokens[index]? = some t ∧ StrayCause tokens range b index c cause ∧
      Scope.matching tokens range b = .error ⟨.bracket b, cause, .ofToken t⟩
  once : ∀ e opened, Scope.matching tokens range b = .error e → e.cause ≠ .repeatedOpener opened
  stable : ∀ scope, Scope.matching tokens range b = .ok scope →
    ∀ (others : Array Token) (later : Nat), scope.stop ≤ later →
      (∀ i, range.start ≤ i → i < scope.stop → others[i]? = tokens[i]?) →
      Scope.matching others ⟨range.start, later⟩ b = .ok scope

namespace Scope

variable {opener : Token}

theorem matching_eq_walk
    (hwithin : range.Within tokens) (hlt : range.start < range.stop)
    (hopener : tokens[range.start]? = some opener) (hkind : opener.kind = .punctuation b.opening) :
    matching tokens range b =
      ((ScopeShape.bracket b).walk tokens opener (range.stop - (range.start + 1))
        (range.start + 1) []).map (⟨range.start, ·⟩) := by
  simp only [matching, ScopeShape.resolve, hopener, Nat.min_eq_left hwithin.stop_le, hlt,
    ScopeShape.admits_opening hkind, decide_true, Bool.and_self, if_true,
    ScopeShape.initial_bracket]
  split
  · rename_i hwalk
    rw [hwalk]
    rfl
  · rename_i hwalk
    rw [hwalk]
    rfl

/-- Matching finds the closing mark before which the tokens are balanced. -/
theorem matching_eq_ok_iff
    (hwithin : range.Within tokens) (hlt : range.start < range.stop)
    (hopening : kindAt tokens range.start = some (.punctuation b.opening)) (scope : Scope) :
    matching tokens range b = .ok scope ↔
      scope.start = range.start ∧ ClosedAt tokens range b scope.stop := by
  obtain ⟨opener, hopener, hkind⟩ := kindAt_eq_some_iff.mp hopening
  have hresolve := ScopeShape.resolve_eq_ok_iff (ScopeShape.frees_bracket b) hopener
    (ScopeShape.admits_opening hkind) hlt hwithin.stop_le scope
  rw [ScopeShape.initial_bracket] at hresolve
  refine hresolve.trans ?_
  constructor
  · rintro ⟨last, rfl, hlast, hbalanced, t, ht, hadmits⟩
    have hclosing : t.kind = .punctuation b.closing := by
      simpa [ScopeShape.bracket, Boundary.admits, Token.isPunctuation] using hadmits
    exact ⟨rfl, hlast, kindAt_eq_some_iff.mpr ⟨t, ht, hclosing⟩, hbalanced⟩
  · obtain ⟨start, stop⟩ := scope
    rintro ⟨rfl, hle, hclosing, hbalanced⟩
    dsimp only at hle hclosing hbalanced
    have hlow := hbalanced.le
    obtain ⟨last, rfl⟩ : ∃ last, stop = last + 1 := ⟨stop - 1, by omega⟩
    obtain ⟨t, ht, hlast⟩ := kindAt_eq_some_iff.mp hclosing
    exact ⟨last, rfl, hle, hbalanced, t, ht, (ScopeShape.admits_closing_iff hlast).mpr rfl⟩

/-- A bracket is never closed if all the closing brackets after it have partners. -/
theorem matching_of_allPartnered
    (hwithin : range.Within tokens) (hlt : range.start < range.stop)
    (hopener : tokens[range.start]? = some opener) (hkind : opener.kind = .punctuation b.opening)
    (hpartnered : AllPartnered tokens (range.start + 1) range.stop) :
    matching tokens range b = .error ((ScopeShape.bracket b).unterminated opener) := by
  have hsum : range.start + 1 + (range.stop - (range.start + 1)) = range.stop := by omega
  obtain ⟨after, -, hwalk⟩ := ScopeShape.walk_of_allPartnered b opener
    (range.stop - (range.start + 1)) 0 (by rw [hsum]; exact hwithin.stop_le)
    (show Leaves tokens (range.start + 1) [] (range.start + 1) from .empty _ _)
    (by rwa [hsum])
  rw [matching_eq_walk hwithin hlt hopener hkind, ← Nat.add_zero (_ - _), hwalk]
  rfl

/-- The first closing bracket without a partner ends the scope, or it is the place of the
error. -/
theorem matching_of_firstStray
    (hwithin : range.Within tokens)
    (hopener : tokens[range.start]? = some opener) (hkind : opener.kind = .punctuation b.opening)
    (hstray : FirstStray tokens (range.start + 1) index c) (hindex : index < range.stop) :
    ClosedAt tokens range b (index + 1) ∨
      ∃ t cause, tokens[index]? = some t ∧ StrayCause tokens range b index c cause ∧
        matching tokens range b = .error ⟨.bracket b, cause, .ofToken t⟩ := by
  have hfirst := hstray.le
  have hsum : range.start + 1 + (index - (range.start + 1)) = index := by omega
  have hsteps : range.stop - (range.start + 1) =
      index - (range.start + 1) + (range.stop - (index + 1) + 1) := by omega
  have hsize : index ≤ tokens.size := Nat.le_trans (Nat.le_of_lt hindex) hwithin.stop_le
  obtain ⟨after, hleaves, hwalk⟩ := ScopeShape.walk_of_allPartnered b opener
    (index - (range.start + 1)) (range.stop - (index + 1) + 1) (by rwa [hsum])
    (show Leaves tokens (range.start + 1) [] (range.start + 1) from .empty _ _)
    (by rw [hsum]; exact hstray.earlier)
  rw [← hsteps, hsum] at hwalk
  rw [hsum] at hleaves
  obtain ⟨t, ht, hcloses⟩ := kindAt_eq_some_iff.mp hstray.closes
  rw [matching_eq_walk hwithin (by omega) hopener hkind, hwalk, ScopeShape.walk, ht]
  cases after with
  | nil =>
      by_cases heq : c = b
      · subst heq
        exact .inl ⟨hindex, hstray.closes, hleaves⟩
      · have hinnermost : Innermost tokens b range.start index :=
          ⟨kindAt_eq_some_iff.mpr ⟨opener, hopener, hkind⟩, hleaves⟩
        refine .inr ⟨t, _, rfl, .mismatched (Nat.le_refl _) hinnermost hopener heq, ?_⟩
        simp only [ScopeShape.step_of_foreign hcloses heq]
        rfl
  | cons top below =>
      obtain ⟨inner, opening, hinside, htop, hinnermost, -⟩ := id hleaves
      obtain ⟨t', ht', htopKind⟩ := kindAt_eq_some_iff.mp hinnermost.opens
      cases ht'.symm.trans htop
      have hne : inner ≠ c := by
        rintro rfl
        exact hstray.stray ⟨inner, opening, hinside, hinnermost, hstray.closes⟩
      refine .inr ⟨t, _, rfl, ?_, by
        simp only [ScopeShape.step_of_stray htopKind hcloses hne]
        rfl⟩
      by_cases heq : c = b
      · subst heq
        rw [if_pos rfl]
        exact .unclosedInner hinside hinnermost htop hne
      · rw [if_neg heq]
        exact .mismatched (Nat.le_of_lt hinside) hinnermost htop heq

/-- A bracket pair resolves to itself in whatever stands around it. -/
theorem matching_of_agreement
    {scope : Scope} (hopening : kindAt tokens range.start = some (.punctuation b.opening))
    (hstart : scope.start = range.start) (hclosed : ClosedAt tokens range b scope.stop)
    {others : Array Token} {later : Nat} (hlater : scope.stop ≤ later)
    (hagree : ∀ i, range.start ≤ i → i < scope.stop → others[i]? = tokens[i]?) :
    matching others ⟨range.start, later⟩ b = .ok scope := by
  obtain ⟨start, stop⟩ := scope
  obtain ⟨-, hclosing, hbalanced⟩ := hclosed
  dsimp only at hstart hlater hagree hclosing hbalanced
  subst hstart
  have hlow := hbalanced.le
  obtain ⟨last, rfl⟩ : ∃ last, stop = last + 1 := ⟨stop - 1, by omega⟩
  rw [kindAt, ← hagree _ (Nat.le_refl _) (by omega), ← kindAt] at hopening
  rw [Nat.add_sub_cancel, kindAt, ← hagree _ (by omega) (by omega), ← kindAt] at hclosing
  have hothers := hbalanced.congr fun i hfirst hlast => hagree i (by omega) (by omega)
  exact matching_of_balanced hopening hothers hclosing hlater

end Scope

/-- A closing bracket that has no partner inside and does not close the scope has no partner at
all. -/
theorem FirstStray.of_not_closedAt
    (h : FirstStray tokens (range.start + 1) index c) (hindex : index < range.stop)
    (hopening : kindAt tokens range.start = some (.punctuation b.opening))
    (hopen : ¬ ClosedAt tokens range b (index + 1)) : FirstStray tokens range.start index c where
  le := Nat.le_of_succ_le h.le
  closes := h.closes
  stray := by
    rintro ⟨c', opening, hle, hinnermost, hcloses⟩
    rcases Nat.eq_or_lt_of_le hle with rfl | hinside
    · obtain rfl := bracket_eq_of_opening hinnermost.opens hopening
      exact hopen ⟨hindex, hcloses, hinnermost.balanced⟩
    · exact h.stray ⟨c', opening, hinside, hinnermost, hcloses⟩
  earlier := by
    intro i d hle hi hcloses
    rcases Nat.eq_or_lt_of_le hle with rfl | hinside
    · exact absurd hopening (not_opening_of_closing hcloses)
    · exact (h.earlier i d hinside hi hcloses).mono (Nat.le_succ _)

/-- If some closing bracket has no partner inside, the scope is closed or there is an error at a
closing bracket without a partner. -/
theorem Scope.matching_of_not_allPartnered
    (hwithin : range.Within tokens)
    (hopening : kindAt tokens range.start = some (.punctuation b.opening))
    (h : ¬ AllPartnered tokens (range.start + 1) range.stop) :
    (∃ stop, ClosedAt tokens range b stop) ∨
      ∃ index c t cause, index < range.stop ∧ FirstStray tokens range.start index c ∧
        tokens[index]? = some t ∧ StrayCause tokens range b index c cause ∧
        matching tokens range b = .error ⟨.bracket b, cause, .ofToken t⟩ := by
  obtain ⟨opener, hopener, hkind⟩ := kindAt_eq_some_iff.mp hopening
  obtain ⟨index, c, hindex, hstray⟩ := exists_firstStray h
  by_cases hclosed : ClosedAt tokens range b (index + 1)
  · exact .inl ⟨_, hclosed⟩
  · rcases matching_of_firstStray hwithin hopener hkind hstray hindex with
      hclosed' | ⟨t, cause, ht, hcause, heq⟩
    · exact absurd hclosed' hclosed
    · exact .inr ⟨index, c, t, cause, hindex, hstray.of_not_closedAt hindex hopening hclosed, ht,
        hcause, heq⟩

/-- An error is that of an unterminated scope or that of a closing bracket without a partner. -/
theorem Scope.cause_of_matching
    (hwithin : range.Within tokens) (hlt : range.start < range.stop)
    (hopening : kindAt tokens range.start = some (.punctuation b.opening)) {e : ScopeError}
    (herror : matching tokens range b = .error e) :
    (AllPartnered tokens (range.start + 1) range.stop ∧
        e.cause = .unterminated (ScopeShape.bracket b).closing.describe) ∨
      ∃ index c, StrayCause tokens range b index c e.cause := by
  obtain ⟨opener, hopener, hkind⟩ := kindAt_eq_some_iff.mp hopening
  by_cases hpartnered : AllPartnered tokens (range.start + 1) range.stop
  · have heq := matching_of_allPartnered hwithin hlt hopener hkind hpartnered
    cases herror.symm.trans heq
    exact .inl ⟨hpartnered, rfl⟩
  · rcases matching_of_not_allPartnered hwithin hopening hpartnered with
      ⟨stop, hclosed⟩ | ⟨index, c, t, cause, -, -, -, hstray, heq⟩
    · have hok := (matching_eq_ok_iff hwithin hlt hopening ⟨range.start, stop⟩).mpr ⟨rfl, hclosed⟩
      cases herror.symm.trans hok
    · cases herror.symm.trans heq
      exact .inr ⟨index, c, hstray⟩

/-- Bracket matching is exact: it finds the one closing mark before which the tokens are balanced,
and it tells apart the ways in which there is none. -/
theorem Scope.matchesExactly
    (hwithin : range.Within tokens) (hlt : range.start < range.stop)
    (hopening : kindAt tokens range.start = some (.punctuation b.opening)) :
    MatchesExactly tokens range b := by
  have hok := matching_eq_ok_iff hwithin hlt hopening
  refine ⟨hok, ?_, ⟨?_, ?_⟩, ?_, ?_, ?_⟩
  · intro stop stop' hclosed hclosed'
    have hfirst := (hok ⟨range.start, stop⟩).mpr ⟨rfl, hclosed⟩
    have hsecond := (hok ⟨range.start, stop'⟩).mpr ⟨rfl, hclosed'⟩
    cases hfirst.symm.trans hsecond
    rfl
  · rintro ⟨e, expected, herror, hcause⟩
    rcases cause_of_matching hwithin hlt hopening herror with ⟨hpartnered, -⟩ | ⟨_, _, hstray⟩
    · exact hpartnered
    · rw [hcause] at hstray
      cases hstray
  · intro hpartnered
    obtain ⟨opener, hopener, hkind⟩ := kindAt_eq_some_iff.mp hopening
    exact ⟨_, _, matching_of_allPartnered hwithin hlt hopener hkind hpartnered, rfl⟩
  · intro hopen hpartnered
    rcases matching_of_not_allPartnered hwithin hopening hpartnered with ⟨stop, hclosed⟩ | hstray
    · exact absurd hclosed (hopen stop)
    · exact hstray
  · intro e opened herror hcause
    rcases cause_of_matching hwithin hlt hopening herror with ⟨-, hother⟩ | ⟨_, _, hstray⟩
    · cases hcause.symm.trans hother
    · rw [hcause] at hstray
      cases hstray
  · intro scope hmatching others later hlater hagree
    obtain ⟨hstart, hclosed⟩ := (hok scope).mp hmatching
    exact matching_of_agreement hopening hstart hclosed hlater hagree

/-- The tokens of `([)]`. -/
def sampleCrossing : Array Token :=
  #[⟨.punctuation .lparen, "(", ⟨0, 1⟩, 1, 1, 1⟩, ⟨.punctuation .lbracket, "[", ⟨1, 2⟩, 1, 2, 1⟩,
    ⟨.punctuation .rparen, ")", ⟨2, 3⟩, 1, 3, 1⟩, ⟨.punctuation .rbracket, "]", ⟨3, 4⟩, 1, 4, 1⟩]

/-- Two pairs that cross are not closed at any place, and the first closing mark is at fault. -/
theorem Scope.matchesExactly_sample :
    MatchesExactly sampleCrossing ⟨0, 4⟩ .paren ∧
      (∀ stop, ¬ ClosedAt sampleCrossing ⟨0, 4⟩ .paren stop) ∧
      ¬ AllPartnered sampleCrossing 1 4 := by
  have hexact : MatchesExactly sampleCrossing ⟨0, 4⟩ .paren :=
    matchesExactly ⟨by decide, by decide⟩ (by decide) (by decide)
  have herror : matching sampleCrossing ⟨0, 4⟩ .paren =
      .error ⟨.bracket .paren, .unclosedInner ⟨"[", 1, 2, ⟨1, 2⟩⟩, ⟨")", 1, 3, ⟨2, 3⟩⟩⟩ := rfl
  refine ⟨hexact, fun stop hclosed => ?_, fun hpartnered => ?_⟩
  · cases herror.symm.trans ((hexact.ok_iff ⟨0, stop⟩).mpr ⟨rfl, hclosed⟩)
  · obtain ⟨e, expected, heq, hcause⟩ := hexact.unterminated_iff.mpr hpartnered
    cases herror.symm.trans heq
    cases hcause

end ExprFront
