import ExprFront.Proofs.Grouping.Decided
import ExprFront.Proofs.Grouping.Phrased
import ExprFront.Proofs.Reading.Decided
import ExprFront.Proofs.Reading.Phrased
import ExprFront.Proofs.Reading.Remapped
import ExprFront.Proofs.Session.Delivered

/-!
# The phrases that a session reads

By either route, what is read in a range is the tree of a phrase that covers
the range, obeys the rules on operands and nests no deeper than the limit. Read
as it was written, every such phrase is found. By way of its grouped form it is
found as well, unless grouping itself nests too deep, which takes more levels
than reading does.
-/

namespace ExprFront

/-- The phrase covers a range, obeys the rules on operands and brackets and keeps to the limit. -/
structure Phrase.Accepted (tokens : Array Token) (limit : Nat) (p : Phrase) (range : TokenRange) :
    Prop where
  covers : p.Covers tokens range
  ordered : p.Ordered
  single : p.Single
  level_le : p.fillLevel ≤ limit

variable {tokens : Array Token} {limit : Nat} {p : Phrase} {range : TokenRange}

theorem Phrase.Accepted.admits
    (h : p.Accepted tokens limit range) : (Reading.plain tokens limit).AdmitsRange 0 p := by
  refine ⟨h.single, ?_⟩
  rw [Nat.zero_add]
  exact h.level_le

theorem Phrase.accepted_of_admits
    (hcovers : p.Covers tokens range) (hordered : p.Ordered)
    (hadmits : (Reading.plain tokens limit).AdmitsRange 0 p) : p.Accepted tokens limit range := by
  obtain ⟨hsingle, hlevel⟩ := hadmits
  rw [Nat.zero_add] at hlevel
  exact ⟨hcovers, hordered, hsingle, hlevel⟩

/-- If the limit exceeds the number of tokens, nesting is no matter. -/
theorem Phrase.accepted_of_length_lt
    (hcovers : p.Covers tokens range) (hordered : p.Ordered) (hsingle : p.Single)
    (hlimit : range.length < limit) : p.Accepted tokens limit range := by
  have hlevel := p.fillLevel_le_width
  have hstop := hcovers.stop_eq
  unfold TokenRange.length at hlimit
  exact ⟨hcovers, hordered, hsingle, by omega⟩

/-- An outcome that is a value is that of the good case. -/
theorem Attempt.Outcome.eq_of_ok
    {α : Type} {good : Prop} {attempt : Attempt α} {a b : α}
    (h : Attempt.Outcome good attempt (.ok a)) (hok : attempt = .ok b) : good ∧ b = a := by
  by_cases hgood : good
  · have heq := h.1 hgood
    rw [hok, Except.ok.injEq] at heq
    exact ⟨hgood, heq⟩
  · obtain ⟨failure, herror, -⟩ := h.2 hgood
    rw [hok] at herror
    cases herror

namespace Reading

/-- What is read in a range, as it was written, is an accepted phrase. -/
theorem exists_accepted_of_whole
    {production : Production} {t : Tree} (h : (plain tokens limit).whole range production = .ok t) :
    ∃ p : Phrase, p.Accepted tokens limit range ∧ t = (p.tree range.start).bare := by
  obtain ⟨p, hcovers, hordered, -, -⟩ := exists_covers_of_whole (fun _ => rfl) h
  obtain ⟨hadmits, htree⟩ := (whole_of_covers hcovers hordered production).eq_of_ok h
  exact ⟨p, Phrase.accepted_of_admits hcovers hordered hadmits, htree⟩

/-- What is read from grouped tokens is an accepted phrase, once it is mapped back. -/
theorem exists_accepted_of_grouped
    {production : Production} {g : Grouped} {t : Tree}
    (hgroup : groupTokens tokens range limit = .ok g)
    (h : (grouped g limit).whole ⟨0, g.entries.size⟩ production = .ok t) :
    ∃ p : Phrase, p.Accepted tokens limit range ∧
      t.mapRanges g.sourceRange = (p.tree range.start).bare := by
  obtain ⟨p, hcovers, hordered, hfilled, hentries⟩ :=
    Grouping.exists_filled_of_groupTokens hgroup
  obtain ⟨hadmits, rfl⟩ :=
    (outcome_whole_grouped hcovers.spells hordered hfilled hentries production).eq_of_ok h
  exact ⟨p, Phrase.accepted_of_admits hcovers hordered hadmits,
    Phrase.mapRanges_bare_mirror hcovers.spells hentries⟩

/-- An accepted phrase is read as it was written. -/
theorem whole_of_accepted
    (h : p.Accepted tokens limit range) (production : Production) :
    (plain tokens limit).whole range production = .ok (p.tree range.start).bare :=
  (whole_of_covers h.covers h.ordered production).1 h.admits

/-- An accepted phrase is read from its grouped tokens. -/
theorem whole_of_accepted_grouped
    {g : Grouped} (h : p.Accepted tokens limit range)
    (hentries : g.entries = (p.grouped tokens range.start).toArray) (production : Production) :
    (grouped g limit).whole ⟨0, g.entries.size⟩ production = .ok (p.mirror 0).bare :=
  (outcome_whole_grouped h.covers.spells h.ordered h.single.filled hentries production).1 h.admits

end Reading

/-- An accepted phrase is grouped, unless it nests too deep for that. -/
theorem Phrase.Accepted.groupTokens_eq
    (h : p.Accepted tokens limit range)
    (hdeep : ∀ most spot, groupTokens tokens range limit ≠ .error (.nestingTooDeep most spot)) :
    groupTokens tokens range limit = .ok ⟨(p.grouped tokens range.start).toArray⟩ := by
  have hemits : Grouping.Emits tokens limit (p.depth < limit) (groupTokens tokens range limit)
      ⟨(p.grouped tokens range.start).toArray⟩ :=
    Grouping.groupTokens_of_covers h.covers h.ordered h.single
  by_cases hdepth : p.depth < limit
  · exact hemits.1 hdepth
  · obtain ⟨index, herror⟩ := hemits.2 hdepth
    exact absurd herror (hdeep _ _)

namespace Session

variable {s : Session}

/-- The content of a range is the tree of an accepted phrase. -/
theorem exists_accepted_of_content
    {t : Tree} (h : s.content range = .ok t) :
    ∃ p : Phrase, p.Accepted s.tokens s.config.limit range ∧ t = (p.tree range.start).bare := by
  unfold content at h
  split at h
  · split at h
    · cases h
    · rename_i g hgroup
      split at h
      · cases h
      · rename_i t hwhole
        cases h
        exact Reading.exists_accepted_of_grouped hgroup hwhole
  · split at h
    · cases h
    · rename_i t hwhole
      cases h
      exact Reading.exists_accepted_of_whole hwhole

/-- The tree of an accepted phrase is the content of its range. -/
theorem content_of_accepted
    (h : p.Accepted s.tokens s.config.limit range)
    (hdeep : s.normalizes range = true → ∀ most spot,
      groupTokens s.tokens range s.config.limit ≠ .error (.nestingTooDeep most spot)) :
    s.content range = .ok (p.tree range.start).bare := by
  unfold content
  split
  · rename_i hnormalizes
    rw [h.groupTokens_eq (hdeep hnormalizes)]
    simp only [Reading.whole_of_accepted_grouped h rfl,
      Phrase.mapRanges_bare_mirror h.covers.spells rfl]
  · simp only [reading, Reading.whole_of_accepted h]

/-- The tokens of `-f.g(x) * y`. -/
def sampleTokens : Array Token :=
  #[⟨.operator .minus, "-", ⟨0, 1⟩, 1, 1, 1⟩, ⟨.identifier, "f", ⟨1, 2⟩, 1, 2, 1⟩,
    ⟨.operator .dot, ".", ⟨2, 3⟩, 1, 3, 1⟩, ⟨.identifier, "g", ⟨3, 4⟩, 1, 4, 1⟩,
    ⟨.punctuation .lparen, "(", ⟨4, 5⟩, 1, 5, 1⟩, ⟨.identifier, "x", ⟨5, 6⟩, 1, 6, 1⟩,
    ⟨.punctuation .rparen, ")", ⟨6, 7⟩, 1, 7, 1⟩, ⟨.operator .star, "*", ⟨8, 9⟩, 1, 9, 1⟩,
    ⟨.identifier, "y", ⟨10, 11⟩, 1, 11, 1⟩]

end Session

end ExprFront
