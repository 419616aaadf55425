import ExprFront.Proofs.Scope.Balance

/-!
# Where a scope closes

A walk keeps the tokens of the brackets that are open. It reaches a closing
token exactly if the segment before that token closes all of them, the
innermost first, and is balanced otherwise. Which tokens may stand outside
brackets is the only thing in which the shapes of scopes differ here.
-/

namespace ExprFront

/-- The segment from `start` to `stop` closes the pending brackets one after the other. Between
them, and after the last one, it is balanced; after the last one, every token outside brackets is
free. -/
def Closes (tokens : Array Token) (free : TokenKind → Prop) :
    (pending : List Token) → (start stop : Nat) → Prop
  | [], start, stop => Balanced tokens free start stop
  | top :: pending, start, stop =>
      ∃ (b : Bracket) (middle : Nat), top.kind = .punctuation b.opening ∧
        Balanced tokens (fun _ => True) start middle ∧
        kindAt tokens middle = some (.punctuation b.closing) ∧
        Closes tokens free pending (middle + 1) stop

/-- What a token does to the pending brackets if it does not end the scope. Outside all brackets
it has to be free. -/
inductive Passes (free : TokenKind → Prop) : List Token → Token → List Token → Prop
  | single {pending : List Token} {t : Token} (hopens : t.kind.opens = none)
      (hcloses : t.kind.closes = none) (hfree : pending = [] → free t.kind) :
      Passes free pending t pending
  | opening {pending : List Token} {t : Token} {b : Bracket} (hopens : t.kind.opens = some b) :
      Passes free pending t (t :: pending)
  | closing {pending : List Token} {top t : Token} {b : Bracket}
      (htop : top.kind.opens = some b) (hcloses : t.kind.closes = some b) :
      Passes free (top :: pending) t pending

/-! ## Segments token by token -/

theorem Closes.le
    {tokens : Array Token} {free : TokenKind → Prop} {pending : List Token} {start stop : Nat}
    (h : Closes tokens free pending start stop) : start ≤ stop := by
  induction pending generalizing start with
  | nil => exact Balanced.le h
  | cons top pending ih =>
      obtain ⟨b, middle, -, hinner, -, hrest⟩ := h
      have := hinner.le
      have := ih hrest
      omega

theorem Closes.of_passes
    {tokens : Array Token} {free : TokenKind → Prop} {pending after : List Token} {t : Token}
    {start stop : Nat} (ht : tokens[start]? = some t) (hpasses : Passes free pending t after)
    (h : Closes tokens free after (start + 1) stop) : Closes tokens free pending start stop := by
  cases hpasses with
  | single hopens hcloses hfree =>
      have hkind : kindAt tokens start = some t.kind := kindAt_eq_some_iff.mpr ⟨t, ht, rfl⟩
      cases pending with
      | nil => exact Balanced.single hkind hopens hcloses (hfree rfl) h
      | cons top pending =>
          obtain ⟨b, middle, htop, hinner, hclosing, hrest⟩ := h
          exact ⟨b, middle, htop, .single hkind hopens hcloses trivial hinner, hclosing, hrest⟩
  | opening hopens =>
      obtain ⟨b, middle, hkind, hinner, hclosing, hrest⟩ := h
      have hopening := kindAt_eq_some_iff.mpr ⟨t, ht, hkind⟩
      cases pending with
      | nil => exact Balanced.nested hopening hinner hclosing hrest
      | cons top pending =>
          obtain ⟨b', last, htop, houter, hlast, hpending⟩ := hrest
          exact ⟨b', last, htop, .nested hopening hinner hclosing houter, hlast, hpending⟩
  | @closing _ top _ b htop hcloses =>
      exact ⟨b, start, TokenKind.opens_eq_some_iff.mp htop, .empty _ _,
        kindAt_eq_some_iff.mpr ⟨t, ht, TokenKind.closes_eq_some_iff.mp hcloses⟩, h⟩

/-- A segment that has not ended starts with a token that passes. -/
theorem Closes.exists_passes
    {tokens : Array Token} {free : TokenKind → Prop} {pending : List Token} {start stop : Nat}
    (h : Closes tokens free pending start stop) :
    (pending = [] ∧ start = stop) ∨
      ∃ t after, tokens[start]? = some t ∧ Passes free pending t after ∧
        Closes tokens free after (start + 1) stop := by
  cases pending with
  | nil =>
      cases h with
      | empty => exact .inl ⟨rfl, rfl⟩
      | single hkind hopens hcloses hfree hrest =>
          obtain ⟨t, ht, rfl⟩ := kindAt_eq_some_iff.mp hkind
          exact .inr ⟨t, [], ht, .single hopens hcloses (fun _ => hfree), hrest⟩
      | @nested _ _ middle _ b hopening hinner hclosing hrest =>
          obtain ⟨t, ht, hkind⟩ := kindAt_eq_some_iff.mp hopening
          exact .inr ⟨t, [t], ht, .opening (TokenKind.opens_eq_some_iff.mpr hkind),
            b, middle, hkind, hinner, hclosing, hrest⟩
  | cons top pending =>
      obtain ⟨b, middle, htop, hinner, hclosing, hrest⟩ := h
      refine .inr ?_
      cases hinner with
      | empty =>
          obtain ⟨t, ht, hkind⟩ := kindAt_eq_some_iff.mp hclosing
          exact ⟨t, pending, ht, .closing (TokenKind.opens_eq_some_iff.mpr htop)
            (TokenKind.closes_eq_some_iff.mpr hkind), hrest⟩
      | single hkind hopens hcloses hfree hinner =>
          obtain ⟨t, ht, rfl⟩ := kindAt_eq_some_iff.mp hkind
          exact ⟨t, top :: pending, ht, .single hopens hcloses (by simp),
            b, middle, htop, hinner, hclosing, hrest⟩
      | @nested _ _ inner _ b' hopening hnested hclosed houter =>
          obtain ⟨t, ht, hkind⟩ := kindAt_eq_some_iff.mp hopening
          exact ⟨t, t :: top :: pending, ht, .opening (TokenKind.opens_eq_some_iff.mpr hkind),
            b', inner, hkind, hnested, hclosed, b, middle, htop, houter, hclosing, hrest⟩

/-! ## Walks -/

namespace ScopeShape

/-- Exactly the free tokens may stand in the scope outside brackets, and no opening bracket ends
it. -/
structure Frees (shape : ScopeShape) (free : TokenKind → Prop) : Prop where
  opening : ∀ t b, t.kind.opens = some b → shape.closing.admits t = false
  single : ∀ t, t.kind.opens = none → t.kind.closes = none →
    (free t.kind ↔
      shape.closing.admits t = false ∧
        (shape.repeats = true ∨ shape.opening.admits t = false))

variable {shape : ScopeShape} {free : TokenKind → Prop}

theorem step_eq_closed_iff
    {opener t : Token} {pending : List Token} :
    shape.step opener pending t = .closed ↔ pending = [] ∧ shape.closing.admits t = true := by
  constructor
  · intro hstep
    unfold step at hstep
    split at hstep
    · rename_i hclosed
      simpa using hclosed
    · split at hstep
      · cases hstep
      · split at hstep
        · unfold stepCloser at hstep
          split at hstep
          · cases hstep
          · split at hstep
            · cases hstep
            · split at hstep <;> cases hstep
        · split at hstep <;> cases hstep
  · rintro ⟨rfl, hadmits⟩
    simp [step, hadmits]

theorem step_eq_next_iff
    (hfrees : shape.Frees free) {opener t : Token} {pending after : List Token} :
    shape.step opener pending t = .next after ↔ Passes free pending t after := by
  constructor
  · intro hstep
    unfold step at hstep
    split at hstep
    · cases hstep
    · rename_i hgoesOn
      split at hstep
      · rename_i hopens
        obtain ⟨b, hb⟩ := Option.isSome_iff_exists.mp hopens
        cases hstep
        exact .opening hb
      · rename_i hopens
        split at hstep
        · rename_i b hcloses
          unfold stepCloser at hstep
          split at hstep
          · cases hstep
          · split at hstep
            · rename_i htop
              cases hstep
              exact .closing htop hcloses
            · split at hstep <;> cases hstep
        · rename_i hcloses
          split at hstep
          · cases hstep
          · rename_i hagain
            cases hstep
            have hnone : t.kind.opens = none := by simpa using hopens
            refine .single hnone hcloses fun hpending => (hfrees.single t hnone hcloses).mpr ?_
            subst hpending
            simp only [List.isEmpty_nil, Bool.true_and, Bool.not_eq_true, Bool.and_eq_true,
              Bool.not_eq_eq_eq_not, not_and] at hgoesOn hagain
            cases hrepeats : shape.repeats with
            | true => exact ⟨hgoesOn, .inl rfl⟩
            | false => exact ⟨hgoesOn, .inr (by simpa [hrepeats] using hagain)⟩
  · intro hpasses
    cases hpasses with
    | single hopens hcloses hfree =>
        cases pending with
        | nil =>
            obtain ⟨hadmits, hagain⟩ := (hfrees.single t hopens hcloses).mp (hfree rfl)
            rcases hagain with hrepeats | hopening
            · simp [step, hadmits, hopens, hcloses, hrepeats]
            · simp [step, hadmits, hopens, hcloses, hopening]
        | cons top pending => simp [step, hopens, hcloses]
    | opening hopens => simp [step, hfrees.opening t _ hopens, hopens]
    | @closing _ top _ b htop hcloses =>
        have hopens := TokenKind.opens_eq_none_of_closes hcloses
        simp [step, stepCloser, hopens, hcloses, htop]

/-- A walk ends after a closing token exactly if the pending brackets are closed right before
it. -/
theorem walk_eq_ok_iff
    (hfrees : shape.Frees free) {tokens : Array Token} {opener : Token} {last : Nat}
    (steps index : Nat) (pending : List Token) :
    shape.walk tokens opener steps index pending = .ok (last + 1) ↔
      Closes tokens free pending index last ∧ last < index + steps ∧
        ∃ t, tokens[last]? = some t ∧ shape.closing.admits t = true := by
  constructor
  · intro hwalk
    have hbounds := shape.walk_bounds _ _ _ _ _ _ hwalk
    refine ⟨?_, by omega, by simpa using closing_of_walk hwalk⟩
    clear hbounds
    -- the pending brackets grow and shrink along the walk, so the induction is over all of them
    induction steps generalizing index pending with
    | zero => cases hwalk
    | succ steps ih =>
        rw [walk] at hwalk
        split at hwalk
        · cases hwalk
        · rename_i t ht
          split at hwalk
          · rename_i hstep
            obtain ⟨rfl, -⟩ := step_eq_closed_iff.mp hstep
            cases hwalk
            exact Balanced.empty _ _
          · rename_i after hstep
            exact .of_passes ht ((step_eq_next_iff hfrees).mp hstep) (ih _ _ hwalk)
          · cases hwalk
  · rintro ⟨hcloses, hlast, t, ht, hadmits⟩
    induction steps generalizing index pending with
    | zero =>
        rcases hcloses.exists_passes with ⟨-, rfl⟩ | ⟨_, _, _, hpasses, hrest⟩
        · omega
        · have := hrest.le
          omega
    | succ steps ih =>
        rcases hcloses.exists_passes with ⟨rfl, rfl⟩ | ⟨first, after, hfirst, hpasses, hrest⟩
        · simp [walk, ht, step_eq_closed_iff.mpr ⟨rfl, hadmits⟩]
        · simp only [walk, hfirst, (step_eq_next_iff hfrees).mpr hpasses]
          exact ih _ _ hrest (by omega)

/-- A scope that has an opener resolves to the closing token before which all is closed. -/
theorem resolve_eq_ok_iff
    (hfrees : shape.Frees free) {tokens : Array Token} {opener : Token} {start stop : Nat}
    (hopener : tokens[start]? = some opener) (hadmits : shape.opening.admits opener = true)
    (hstart : start < stop) (hstop : stop ≤ tokens.size) (scope : Scope) :
    shape.resolve tokens ⟨start, stop⟩ = .ok scope ↔
      ∃ last, scope = ⟨start, last + 1⟩ ∧ last < stop ∧
        Closes tokens free (shape.initial opener) (start + 1) last ∧
        ∃ t, tokens[last]? = some t ∧ shape.closing.admits t = true := by
  have hsteps : start + 1 + (stop - (start + 1)) = stop := by omega
  simp only [resolve, hopener, Nat.min_eq_left hstop, hstart, hadmits, decide_true, Bool.and_self,
    if_true]
  constructor
  · intro hresolve
    split at hresolve
    · rename_i after hwalk
      cases hresolve
      obtain ⟨last, rfl⟩ : ∃ last, after = last + 1 :=
        ⟨after - 1, by have := shape.walk_bounds _ _ _ _ _ _ hwalk; omega⟩
      obtain ⟨hcloses, hlast, hclosing⟩ := (walk_eq_ok_iff hfrees _ _ _).mp hwalk
      exact ⟨last, rfl, by omega, hcloses, hclosing⟩
    · cases hresolve
  · rintro ⟨last, rfl, hlast, hcloses, hclosing⟩
    rw [(walk_eq_ok_iff hfrees _ _ _).mpr ⟨hcloses, by omega, hclosing⟩]

end ScopeShape

end ExprFront
