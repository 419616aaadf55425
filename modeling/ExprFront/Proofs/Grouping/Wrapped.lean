import ExprFront.Proofs.Grouping.Frames

/-!
# Grouped phrases as phrases

The tokens of a grouped phrase spell a phrase again, in which every application
stands in parentheses: `Phrase.wrapped`. `Phrase.Marked` says which of its
parentheses were inserted. A grouped phrase keeps the tokens of the phrase in
their order, so every segment of it is mapped back to where its tokens stood.
-/

namespace ExprFront

open Grouping

/-! ## Wrapped phrases -/

namespace Phrase

mutual

/-- The phrase with parentheses around each application. -/
def wrapped : Phrase → Phrase
  | leaf kind => leaf kind
  | group b parts => group b (wrappedAll parts)
  | before op operand => group .paren [before op operand.wrapped]
  | after operand op => group .paren [after operand.wrapped op]
  | applied callee b parts => group .paren [applied callee.wrapped b (wrappedAll parts)]
  | between left op right => group .paren [between left.wrapped op right.wrapped]

/-- Several phrases with parentheses around each application. -/
def wrappedAll : List Phrase → List Phrase
  | [] => []
  | p :: ps => p.wrapped :: wrappedAll ps

end

theorem wrappedAll_eq_map
    (parts : List Phrase) : wrappedAll parts = parts.map wrapped := by
  induction parts with
  | nil => rfl
  | cons p ps ih => rw [wrappedAll, ih, List.map_cons]

theorem width_wrapped_before
    (op : Operation) (operand : Phrase) :
    (before op operand).wrapped.width = operand.wrapped.width + 3 := by
  simp only [wrapped, width, partsWidth, laterWidth]

theorem width_wrapped_after
    (operand : Phrase) (op : Operation) :
    (after operand op).wrapped.width = operand.wrapped.width + 3 := by
  simp only [wrapped, width, partsWidth, laterWidth]

theorem width_wrapped_applied
    (callee : Phrase) (b : Bracket) (parts : List Phrase) :
    (applied callee b parts).wrapped.width =
      callee.wrapped.width + (group b (wrappedAll parts)).width + 2 := by
  simp only [wrapped, width, partsWidth, laterWidth]

theorem width_wrapped_between
    (left : Phrase) (op : Operation) (right : Phrase) :
    (between left op right).wrapped.width = left.wrapped.width + right.wrapped.width + 3 := by
  simp only [wrapped, width, partsWidth, laterWidth]
  omega

mutual

/-- The parentheses around each application are inserted, and no others are. -/
def Marked (isInserted : Nat → Punctuation → Bool) : Phrase → (start : Nat) → Prop
  | leaf _, start => isInserted start .lparen = false
  | group _ parts, start =>
      isInserted start .lparen = false ∧ AllMarked isInserted parts (start + 1)
  | before _ operand, start =>
      isInserted start .lparen = true ∧ isInserted (start + 1) .lparen = false ∧
        operand.Marked isInserted (start + 2) ∧
        isInserted (start + 2 + operand.wrapped.width) .rparen = true
  | after operand _, start =>
      isInserted start .lparen = true ∧ operand.Marked isInserted (start + 1) ∧
        isInserted (start + 1 + operand.wrapped.width + 1) .rparen = true
  | applied callee b parts, start =>
      isInserted start .lparen = true ∧ callee.Marked isInserted (start + 1) ∧
        AllMarked isInserted parts (start + 1 + callee.wrapped.width + 1) ∧
        isInserted (start + 1 + callee.wrapped.width + (group b (wrappedAll parts)).width)
          .rparen = true
  | between left _ right, start =>
      isInserted start .lparen = true ∧ left.Marked isInserted (start + 1) ∧
        right.Marked isInserted (start + 1 + left.wrapped.width + 1) ∧
        isInserted (start + 1 + left.wrapped.width + 1 + right.wrapped.width) .rparen = true

/-- The same for phrases of which each starts one token after the one before it. -/
def AllMarked (isInserted : Nat → Punctuation → Bool) : List Phrase → (start : Nat) → Prop
  | [], _ => True
  | p :: ps, start =>
      p.Marked isInserted start ∧ AllMarked isInserted ps (start + p.wrapped.width + 1)

end

end Phrase

/-! ## Segments of grouped tokens -/

namespace Grouped

variable {g : Grouped}

/-- The entries from an index on start with the given ones. -/
def Has (g : Grouped) (start : Nat) (entries : List GroupedToken) : Prop :=
  entries <+: g.entries.toList.drop start

theorem has_append_iff
    {start : Nat} {front back : List GroupedToken} :
    g.Has start (front ++ back) ↔ g.Has start front ∧ g.Has (start + front.length) back := by
  unfold Has
  rw [← List.drop_drop]
  generalize g.entries.toList.drop start = rest
  constructor
  · rintro ⟨more, rfl⟩
    refine ⟨⟨back ++ more, by simp⟩, ⟨more, ?_⟩⟩
    simp [List.append_assoc]
  · rintro ⟨⟨more, rfl⟩, hback⟩
    simp only [List.drop_left] at hback
    obtain ⟨last, rfl⟩ := hback
    exact ⟨last, by simp⟩

theorem has_singleton_iff
    {start : Nat} {entry : GroupedToken} :
    g.Has start [entry] ↔ g.entries[start]? = some entry := by
  unfold Has
  rw [← Array.getElem?_toList, ← List.head?_drop]
  cases g.entries.toList.drop start with
  | nil => simp
  | cons first rest => simp [eq_comm]

theorem has_cons_iff
    {start : Nat} {entry : GroupedToken} {rest : List GroupedToken} :
    g.Has start (entry :: rest) ↔ g.entries[start]? = some entry ∧ g.Has (start + 1) rest := by
  rw [← List.singleton_append, has_append_iff, has_singleton_iff]
  rfl

theorem kindAt_tokens
    (g : Grouped) (index : Nat) :
    kindAt g.tokens index = g.entries[index]?.map fun e => e.token.kind := by
  simp [kindAt, tokens, Function.comp_def]

/-- The copy of a token is of its kind and not inserted. -/
theorem of_has_copy
    {tokens : Array Token} {start index : Nat} (hindex : index < tokens.size)
    (h : g.Has start (copy tokens index)) :
    kindAt g.tokens start = kindAt tokens index ∧ ∀ mark, g.isInserted start mark = false := by
  have ht : tokens[index]? = some tokens[index] := Array.getElem?_eq_getElem hindex
  rw [copy_of_getElem? ht, has_singleton_iff] at h
  refine ⟨?_, fun mark => ?_⟩
  · rw [kindAt_tokens, h]
    simp [kindAt, ht]
  · simp [isInserted, h]

theorem kindAt_of_inserted
    {index : Nat} {mark : Punctuation} (h : g.isInserted index mark = true) :
    kindAt g.tokens index = some (.punctuation mark) := by
  unfold isInserted at h
  cases hentry : g.entries[index]? with
  | none => simp [hentry] at h
  | some entry =>
      simp only [hentry, Option.any_some, Bool.and_eq_true] at h
      have hkind : entry.token.kind = .punctuation mark := by
        simpa [Token.isPunctuation] using h.1
      simp [kindAt_tokens, hentry, hkind]

end Grouped

namespace Grouping

variable {tokens : Array Token} {g : Grouped}

@[simp] theorem length_copy
    {index : Nat} (h : index < tokens.size) : (copy tokens index).length = 1 := by
  simp [copy, h]

theorem length_enclose
    {anchor : Nat} (hanchor : anchor < tokens.size) {entries : List GroupedToken}
    (hentries : entries ≠ []) : (enclose tokens anchor entries).length = entries.length + 2 := by
  obtain ⟨first, rest, rfl⟩ := List.exists_cons_of_ne_nil hentries
  simp [enclose, hanchor]

/-- Enclosed entries stand between two inserted parentheses. -/
theorem of_has_enclose
    {anchor start : Nat} (hanchor : anchor < tokens.size) {entries : List GroupedToken}
    (hentries : entries ≠ []) (h : g.Has start (enclose tokens anchor entries)) :
    g.isInserted start .lparen = true ∧ g.Has (start + 1) entries ∧
      g.isInserted (start + 1 + entries.length) .rparen = true := by
  obtain ⟨first, rest, rfl⟩ := List.exists_cons_of_ne_nil hentries
  have hlast : tokens[anchor]? = some tokens[anchor] := Array.getElem?_eq_getElem hanchor
  simp only [enclose, List.head?_cons, hlast, List.cons_append] at h
  rw [Grouped.has_cons_iff, ← List.cons_append, Grouped.has_append_iff,
    Grouped.has_singleton_iff] at h
  obtain ⟨hopening, hinner, hclosing⟩ := h
  refine ⟨?_, hinner, ?_⟩
  · simp [Grouped.isInserted, hopening, Token.isPunctuation, Token.insertedAt]
  · rw [Grouped.isInserted, hclosing]
    simp [Token.isPunctuation, Token.insertedAt]

end Grouping

namespace Phrase

variable {tokens : Array Token} {g : Grouped}

/-! ## Lengths -/

theorem length_groupedLater
    {parts : List Phrase}
    (hparts : ∀ p ∈ parts, ∀ start, p.Spells tokens start →
      (p.grouped tokens start).length = p.wrapped.width)
    {start : Nat} (h : SpellsLater tokens parts start) :
    (groupedLater tokens parts start).length = laterWidth (wrappedAll parts) := by
  induction parts generalizing start with
  | nil => rfl
  | cons p ps ih =>
      obtain ⟨hcomma, hp, hps⟩ := h
      have hhead := hparts p List.mem_cons_self _ hp
      have htail := ih (fun q hq => hparts q (List.mem_cons_of_mem p hq)) hps
      simp only [groupedLater, List.length_append, length_copy (lt_size_of_kindAt hcomma), hhead,
        htail, wrappedAll, laterWidth]
      omega

theorem length_groupedParts
    {parts : List Phrase}
    (hparts : ∀ p ∈ parts, ∀ start, p.Spells tokens start →
      (p.grouped tokens start).length = p.wrapped.width)
    {start : Nat} (h : SpellsParts tokens parts start) :
    (groupedParts tokens parts start).length = partsWidth (wrappedAll parts) := by
  cases parts with
  | nil => rfl
  | cons p ps =>
      have hhead := hparts p List.mem_cons_self _ h.1
      have htail := length_groupedLater (fun q hq => hparts q (List.mem_cons_of_mem p hq)) h.2
      simp only [groupedParts, List.length_append, hhead, htail, wrappedAll, partsWidth]

/-- A grouped phrase has the tokens of the wrapped phrase. -/
theorem length_grouped
    {p : Phrase} {start : Nat} (h : p.Spells tokens start) :
    (p.grouped tokens start).length = p.wrapped.width := by
  induction p generalizing start with
  | leaf kind =>
      obtain ⟨k, hk, -⟩ := exists_of_spells_leaf h
      exact length_copy (lt_size_of_kindAt hk)
  | group b parts ih =>
      obtain ⟨hopening, hparts, hclosing⟩ := h
      have hinner := length_groupedParts (fun p hp start hs => ih p hp hs) hparts
      simp only [grouped, List.length_append, length_copy (lt_size_of_kindAt hopening), hinner,
        length_copy (lt_size_of_kindAt hclosing), wrapped, width]
      omega
  | before op operand ih =>
      obtain ⟨k, hk, -⟩ := exists_of_spells_before h
      have hsize := lt_size_of_kindAt hk
      rw [grouped, length_enclose hsize (by simp [copy_ne_nil hsize])]
      simp only [List.length_append, length_copy hsize, ih h.2, wrapped, width, partsWidth,
        laterWidth]
      omega
  | after operand op ih =>
      obtain ⟨k, hk, -⟩ := exists_of_spells_after h
      have hsize := lt_size_of_kindAt hk
      rw [grouped, length_enclose hsize (by simp [copy_ne_nil hsize])]
      simp only [List.length_append, length_copy hsize, ih h.1, wrapped, width, partsWidth,
        laterWidth]
  | applied callee b parts ihCallee ihParts =>
      obtain ⟨hcallee, hopening, hparts, hclosing⟩ := h
      have hinner := length_groupedParts (fun p hp start hs => ihParts p hp hs) hparts
      have hsize := lt_size_of_kindAt hclosing
      rw [grouped, length_enclose hsize (by simp [copy_ne_nil hsize])]
      simp only [List.length_append, length_copy (lt_size_of_kindAt hopening), hinner,
        length_copy hsize, ihCallee hcallee, wrapped, width, partsWidth, laterWidth]
      omega
  | between left op right ihLeft ihRight =>
      obtain ⟨k, hk, -⟩ := exists_of_spells_between h
      have hsize := lt_size_of_kindAt hk
      rw [grouped, length_enclose hsize (by simp [copy_ne_nil hsize])]
      simp only [List.length_append, length_copy hsize, ihLeft h.1, ihRight h.2.2, wrapped, width,
        partsWidth, laterWidth]
      omega

/-! ## Segments of grouped phrases -/

theorem has_group
    {b : Bracket} {parts : List Phrase} {source start : Nat}
    (h : (group b parts).Spells tokens source)
    (hhas : g.Has start ((group b parts).grouped tokens source)) :
    g.Has start (copy tokens source) ∧ g.Has (start + 1) (groupedParts tokens parts (source + 1)) ∧
      g.Has (start + 1 + partsWidth (wrappedAll parts))
        (copy tokens (source + 1 + partsWidth parts)) := by
  obtain ⟨hopening, hinner, hclosing⟩ := h
  have hlength := length_groupedParts (fun p _ _ hp => length_grouped hp) hinner
  rw [grouped, Grouped.has_append_iff, Grouped.has_append_iff, List.length_append,
    length_copy (lt_size_of_kindAt hopening), hlength, ← Nat.add_assoc] at hhas
  exact ⟨hhas.1.1, hhas.1.2, hhas.2⟩

theorem has_before
    {op : Operation} {operand : Phrase} {source start : Nat}
    (h : (before op operand).Spells tokens source)
    (hhas : g.Has start ((before op operand).grouped tokens source)) :
    g.isInserted start .lparen = true ∧ g.Has (start + 1) (copy tokens source) ∧
      g.Has (start + 2) (operand.grouped tokens (source + 1)) ∧
      g.isInserted (start + 2 + operand.wrapped.width) .rparen = true := by
  obtain ⟨k, hk, -⟩ := exists_of_spells_before h
  have hsize := lt_size_of_kindAt hk
  obtain ⟨hopening, hinner, hclosing⟩ := of_has_enclose hsize (by simp [copy_ne_nil hsize]) hhas
  rw [Grouped.has_append_iff, length_copy hsize] at hinner
  rw [List.length_append, length_copy hsize, length_grouped h.2, ← Nat.add_assoc] at hclosing
  exact ⟨hopening, hinner.1, hinner.2, hclosing⟩

theorem has_after
    {operand : Phrase} {op : Operation} {source start : Nat}
    (h : (after operand op).Spells tokens source)
    (hhas : g.Has start ((after operand op).grouped tokens source)) :
    g.isInserted start .lparen = true ∧ g.Has (start + 1) (operand.grouped tokens source) ∧
      g.Has (start + 1 + operand.wrapped.width) (copy tokens (source + operand.width)) ∧
      g.isInserted (start + 1 + operand.wrapped.width + 1) .rparen = true := by
  obtain ⟨k, hk, -⟩ := exists_of_spells_after h
  have hsize := lt_size_of_kindAt hk
  obtain ⟨hopening, hinner, hclosing⟩ := of_has_enclose hsize (by simp [copy_ne_nil hsize]) hhas
  rw [Grouped.has_append_iff, length_grouped h.1] at hinner
  rw [List.length_append, length_copy hsize, length_grouped h.1, ← Nat.add_assoc] at hclosing
  exact ⟨hopening, hinner.1, hinner.2, hclosing⟩

theorem has_applied
    {callee : Phrase} {b : Bracket} {parts : List Phrase} {source start : Nat}
    (h : (applied callee b parts).Spells tokens source)
    (hhas : g.Has start ((applied callee b parts).grouped tokens source)) :
    g.isInserted start .lparen = true ∧ g.Has (start + 1) (callee.grouped tokens source) ∧
      g.Has (start + 1 + callee.wrapped.width)
        ((group b parts).grouped tokens (source + callee.width)) ∧
      g.isInserted (start + 1 + callee.wrapped.width + (group b (wrappedAll parts)).width)
        .rparen = true := by
  have hsize := h.le_size
  obtain ⟨hcallee, hgroup⟩ := spells_applied_iff.mp h
  have hpos := (group b parts).width_pos
  rw [width_applied] at hsize
  have hfirst := lt_size_of_kindAt hgroup.1
  rw [grouped_applied] at hhas
  obtain ⟨hopening, hinner, hclosing⟩ :=
    of_has_enclose (by omega) (by simp [grouped, copy_ne_nil hfirst]) hhas
  rw [Grouped.has_append_iff, length_grouped hcallee] at hinner
  rw [List.length_append, length_grouped hcallee, length_grouped hgroup, wrapped,
    ← Nat.add_assoc] at hclosing
  exact ⟨hopening, hinner.1, hinner.2, hclosing⟩

theorem has_between
    {left : Phrase} {op : Operation} {right : Phrase} {source start : Nat}
    (h : (between left op right).Spells tokens source)
    (hhas : g.Has start ((between left op right).grouped tokens source)) :
    g.isInserted start .lparen = true ∧ g.Has (start + 1) (left.grouped tokens source) ∧
      g.Has (start + 1 + left.wrapped.width) (copy tokens (source + left.width)) ∧
      g.Has (start + 1 + left.wrapped.width + 1)
        (right.grouped tokens (source + left.width + 1)) ∧
      g.isInserted (start + 1 + left.wrapped.width + 1 + right.wrapped.width) .rparen = true := by
  obtain ⟨k, hk, -⟩ := exists_of_spells_between h
  have hsize := lt_size_of_kindAt hk
  obtain ⟨hopening, hinner, hclosing⟩ := of_has_enclose hsize (by simp [copy_ne_nil hsize]) hhas
  rw [Grouped.has_append_iff, Grouped.has_append_iff, List.length_append, length_grouped h.1,
    length_copy hsize, ← Nat.add_assoc] at hinner
  rw [List.length_append, List.length_append, length_grouped h.1, length_copy hsize,
    length_grouped h.2.2, ← Nat.add_assoc, ← Nat.add_assoc] at hclosing
  exact ⟨hopening, hinner.1.1, hinner.1.2, hinner.2, hclosing⟩

/-- Each of several phrases is spelled and stands grouped where the one before it and a single
token end. -/
def EachHas (tokens : Array Token) (g : Grouped) : List Phrase → (source start : Nat) → Prop
  | [], _, _ => True
  | p :: ps, source, start =>
      p.Spells tokens source ∧ g.Has start (p.grouped tokens source) ∧
        EachHas tokens g ps (source + p.width + 1) (start + p.wrapped.width + 1)

theorem SpellsLater.eachHas
    {parts : List Phrase} {source start : Nat} (h : SpellsLater tokens parts source)
    (hhas : g.Has start (groupedLater tokens parts source)) :
    EachHas tokens g parts (source + 1) (start + 1) := by
  induction parts generalizing source start with
  | nil => trivial
  | cons p ps ih =>
      obtain ⟨hcomma, hp, hps⟩ := h
      rw [groupedLater, Grouped.has_append_iff, Grouped.has_append_iff,
        length_copy (lt_size_of_kindAt hcomma), length_grouped hp] at hhas
      exact ⟨hp, hhas.2.1, ih hps hhas.2.2⟩

theorem SpellsParts.eachHas
    {parts : List Phrase} {source start : Nat} (h : SpellsParts tokens parts source)
    (hhas : g.Has start (groupedParts tokens parts source)) :
    EachHas tokens g parts source start := by
  cases parts with
  | nil => trivial
  | cons p ps =>
      rw [groupedParts, Grouped.has_append_iff, length_grouped h.1] at hhas
      exact ⟨h.1, hhas.1, SpellsLater.eachHas h.2 hhas.2⟩

/-! ## Tokens -/

/-- The phrase stands grouped in the grouped tokens, from an index on. -/
structure Sits (g : Grouped) (p : Phrase) (start : Nat) : Prop where
  spells : p.wrapped.Spells g.tokens start
  marked : p.Marked g.isInserted start

theorem later_of_has
    {parts : List Phrase}
    (hparts : ∀ p ∈ parts, ∀ source start, p.Spells tokens source →
      g.Has start (p.grouped tokens source) → p.Sits g start)
    {source start : Nat} (h : SpellsLater tokens parts source)
    (hhas : g.Has start (groupedLater tokens parts source)) :
    SpellsLater g.tokens (wrappedAll parts) start ∧ AllMarked g.isInserted parts (start + 1) := by
  induction parts generalizing source start with
  | nil => exact ⟨trivial, trivial⟩
  | cons p ps ih =>
      obtain ⟨hcomma, hp, hps⟩ := h
      have hsize := lt_size_of_kindAt hcomma
      rw [groupedLater, Grouped.has_append_iff, Grouped.has_append_iff, length_copy hsize,
        length_grouped hp] at hhas
      obtain ⟨hcopy, hhead, htail⟩ := hhas
      have hfirst := hparts p List.mem_cons_self _ _ hp hhead
      have hrest := ih (fun q hq => hparts q (List.mem_cons_of_mem p hq)) hps htail
      have hkind := (Grouped.of_has_copy hsize hcopy).1
      exact ⟨⟨hkind.trans hcomma, hfirst.spells, hrest.1⟩, hfirst.marked, hrest.2⟩

theorem parts_of_has
    {parts : List Phrase}
    (hparts : ∀ p ∈ parts, ∀ source start, p.Spells tokens source →
      g.Has start (p.grouped tokens source) → p.Sits g start)
    {source start : Nat} (h : SpellsParts tokens parts source)
    (hhas : g.Has start (groupedParts tokens parts source)) :
    SpellsParts g.tokens (wrappedAll parts) start ∧ AllMarked g.isInserted parts start := by
  cases parts with
  | nil => exact ⟨trivial, trivial⟩
  | cons p ps =>
      rw [groupedParts, Grouped.has_append_iff, length_grouped h.1] at hhas
      have hfirst := hparts p List.mem_cons_self _ _ h.1 hhas.1
      have hrest := later_of_has (fun q hq => hparts q (List.mem_cons_of_mem p hq)) h.2 hhas.2
      exact ⟨⟨hfirst.spells, hrest.1⟩, hfirst.marked, hrest.2⟩

/-- The tokens of a bracket group are those of a group of its wrapped parts. -/
theorem group_of_has
    {b : Bracket} {parts : List Phrase}
    (hparts : ∀ p ∈ parts, ∀ source start, p.Spells tokens source →
      g.Has start (p.grouped tokens source) → p.Sits g start)
    {source start : Nat} (h : (group b parts).Spells tokens source)
    (hhas : g.Has start ((group b parts).grouped tokens source)) :
    (group b (wrappedAll parts)).Spells g.tokens start ∧
      g.isInserted start .lparen = false ∧ AllMarked g.isInserted parts (start + 1) := by
  obtain ⟨hopen, hmiddle, hclose⟩ := has_group h hhas
  obtain ⟨hopening, hinner, hclosing⟩ := h
  have hopenKind := Grouped.of_has_copy (lt_size_of_kindAt hopening) hopen
  have hcloseKind := Grouped.of_has_copy (lt_size_of_kindAt hclosing) hclose
  obtain ⟨hspells, hmarked⟩ := parts_of_has hparts hinner hmiddle
  exact ⟨⟨hopenKind.1.trans hopening, hspells, hcloseKind.1.trans hclosing⟩, hopenKind.2 _,
    hmarked⟩

/-- An application stands between inserted parentheses. -/
theorem spells_parens_of_inserted
    {p : Phrase} {start : Nat} (hopening : g.isInserted start .lparen = true)
    (hspells : p.Spells g.tokens (start + 1))
    (hclosing : g.isInserted (start + 1 + p.width) .rparen = true) :
    (group .paren [p]).Spells g.tokens start :=
  ⟨Grouped.kindAt_of_inserted hopening, ⟨hspells, trivial⟩, Grouped.kindAt_of_inserted hclosing⟩

/-- Grouped tokens spell the wrapped phrase. -/
theorem sits_of_has
    {p : Phrase} {source start : Nat} (h : p.Spells tokens source)
    (hhas : g.Has start (p.grouped tokens source)) : p.Sits g start := by
  induction p generalizing source start with
  | leaf kind =>
      obtain ⟨k, hk, hleaf⟩ := exists_of_spells_leaf h
      obtain ⟨hkind, hinserted⟩ := Grouped.of_has_copy (lt_size_of_kindAt hk) hhas
      refine ⟨?_, hinserted .lparen⟩
      simp [wrapped, Spells, hkind, hk, hleaf]
  | group b parts ih =>
      obtain ⟨hspells, hinserted, hmarked⟩ :=
        group_of_has (fun p hp source start hs => ih p hp hs) h hhas
      exact ⟨hspells, hinserted, hmarked⟩
  | before op operand ih =>
      obtain ⟨k, hk, hbefore⟩ := exists_of_spells_before h
      obtain ⟨hopening, hcopy, hrest, hclosing⟩ := has_before h hhas
      obtain ⟨hkind, hinserted⟩ := Grouped.of_has_copy (lt_size_of_kindAt hk) hcopy
      have hoperand := ih h.2 hrest
      refine ⟨spells_parens_of_inserted hopening ⟨?_, hoperand.spells⟩ ?_, hopening,
        hinserted .lparen, hoperand.marked, hclosing⟩
      · simp [hkind, hk, hbefore]
      · rwa [width, Nat.add_comm operand.wrapped.width, ← Nat.add_assoc]
  | after operand op ih =>
      obtain ⟨k, hk, hafter⟩ := exists_of_spells_after h
      obtain ⟨hopening, hrest, hcopy, hclosing⟩ := has_after h hhas
      obtain ⟨hkind, -⟩ := Grouped.of_has_copy (lt_size_of_kindAt hk) hcopy
      have hoperand := ih h.1 hrest
      refine ⟨spells_parens_of_inserted hopening ⟨hoperand.spells, ?_⟩ hclosing, hopening,
        hoperand.marked, hclosing⟩
      simp [hkind, hk, hafter]
  | applied callee b parts ihCallee ihParts =>
      obtain ⟨hcallee, hgroup⟩ := spells_applied_iff.mp h
      obtain ⟨hopening, hfirst, hrest, hclosing⟩ := has_applied h hhas
      have hcalleeSits := ihCallee hcallee hfirst
      obtain ⟨hspells, -, hmarked⟩ :=
        group_of_has (fun p hp source start hs => ihParts p hp hs) hgroup hrest
      refine ⟨spells_parens_of_inserted hopening
        (spells_applied_iff.mpr ⟨hcalleeSits.spells, hspells⟩) ?_, hopening, hcalleeSits.marked,
        hmarked, hclosing⟩
      rwa [width_applied, ← Nat.add_assoc]
  | between left op right ihLeft ihRight =>
      obtain ⟨k, hk, hbetween⟩ := exists_of_spells_between h
      obtain ⟨hopening, hleft, hcopy, hright, hclosing⟩ := has_between h hhas
      obtain ⟨hkind, -⟩ := Grouped.of_has_copy (lt_size_of_kindAt hk) hcopy
      have hleftSits := ihLeft h.1 hleft
      have hrightSits := ihRight h.2.2 hright
      refine ⟨spells_parens_of_inserted hopening ⟨hleftSits.spells, ?_, hrightSits.spells⟩ ?_,
        hopening, hleftSits.marked, hrightSits.marked, hclosing⟩
      · simp [hkind, hk, hbetween]
      · rwa [width, Nat.add_comm right.wrapped.width, ← Nat.add_assoc, ← Nat.add_assoc]

/-! ## Sources -/

theorem sources_copy
    {index : Nat} (h : index < tokens.size) :
    (copy tokens index).filterMap (·.source) = List.range' index 1 := by
  simp [copy, h]

theorem sources_enclose
    (anchor : Nat) (entries : List GroupedToken) :
    (enclose tokens anchor entries).filterMap (·.source) = entries.filterMap (·.source) := by
  unfold enclose
  split <;> simp

theorem sources_groupedLater
    {parts : List Phrase}
    (hparts : ∀ p ∈ parts, ∀ start, p.Spells tokens start →
      (p.grouped tokens start).filterMap (·.source) = List.range' start p.width)
    {start : Nat} (h : SpellsLater tokens parts start) :
    (groupedLater tokens parts start).filterMap (·.source) =
      List.range' start (laterWidth parts) := by
  induction parts generalizing start with
  | nil => rfl
  | cons p ps ih =>
      obtain ⟨hcomma, hp, hps⟩ := h
      have hhead := hparts p List.mem_cons_self _ hp
      have htail := ih (fun q hq => hparts q (List.mem_cons_of_mem p hq)) hps
      have hwidth : laterWidth (p :: ps) = 1 + (p.width + laterWidth ps) := by
        simp only [laterWidth]
        omega
      rw [groupedLater, List.filterMap_append, List.filterMap_append,
        sources_copy (lt_size_of_kindAt hcomma), hhead, htail, List.range'_append_1,
        List.range'_append_1, hwidth]

theorem sources_groupedParts
    {parts : List Phrase}
    (hparts : ∀ p ∈ parts, ∀ start, p.Spells tokens start →
      (p.grouped tokens start).filterMap (·.source) = List.range' start p.width)
    {start : Nat} (h : SpellsParts tokens parts start) :
    (groupedParts tokens parts start).filterMap (·.source) =
      List.range' start (partsWidth parts) := by
  cases parts with
  | nil => rfl
  | cons p ps =>
      have hhead := hparts p List.mem_cons_self _ h.1
      have htail := sources_groupedLater (fun q hq => hparts q (List.mem_cons_of_mem p hq)) h.2
      rw [groupedParts, List.filterMap_append, hhead, htail, List.range'_append_1, partsWidth]

theorem sources_group
    {b : Bracket} {parts : List Phrase}
    (hparts : ∀ p ∈ parts, ∀ start, p.Spells tokens start →
      (p.grouped tokens start).filterMap (·.source) = List.range' start p.width)
    {start : Nat} (h : (group b parts).Spells tokens start) :
    ((group b parts).grouped tokens start).filterMap (·.source) =
      List.range' start (group b parts).width := by
  obtain ⟨hopening, hinner, hclosing⟩ := h
  have hwidth : (group b parts).width = 1 + (partsWidth parts + 1) := by
    simp only [width]
    omega
  rw [grouped, List.append_assoc, List.filterMap_append, List.filterMap_append,
    sources_copy (lt_size_of_kindAt hopening), sources_copy (lt_size_of_kindAt hclosing),
    sources_groupedParts hparts hinner, List.range'_append_1, List.range'_append_1, hwidth]

/-- A grouped phrase keeps the tokens of the phrase in their order. -/
theorem sources_grouped
    {p : Phrase} {start : Nat} (h : p.Spells tokens start) :
    (p.grouped tokens start).filterMap (·.source) = List.range' start p.width := by
  induction p generalizing start with
  | leaf kind =>
      obtain ⟨k, hk, -⟩ := exists_of_spells_leaf h
      exact sources_copy (lt_size_of_kindAt hk)
  | group b parts ih => exact sources_group (fun p hp start hs => ih p hp hs) h
  | before op operand ih =>
      obtain ⟨k, hk, -⟩ := exists_of_spells_before h
      rw [grouped, sources_enclose, List.filterMap_append, sources_copy (lt_size_of_kindAt hk),
        ih h.2, List.range'_append_1, width, Nat.add_comm]
  | after operand op ih =>
      obtain ⟨k, hk, -⟩ := exists_of_spells_after h
      rw [grouped, sources_enclose, List.filterMap_append, sources_copy (lt_size_of_kindAt hk),
        ih h.1, List.range'_append_1, width]
  | applied callee b parts ihCallee ihParts =>
      obtain ⟨hcallee, hgroup⟩ := spells_applied_iff.mp h
      rw [grouped_applied, sources_enclose, List.filterMap_append, ihCallee hcallee,
        sources_group (fun p hp start hs => ihParts p hp hs) hgroup, List.range'_append_1,
        width_applied]
  | between left op right ihLeft ihRight =>
      obtain ⟨k, hk, -⟩ := exists_of_spells_between h
      rw [grouped, sources_enclose, List.append_assoc, List.filterMap_append,
        List.filterMap_append, sources_copy (lt_size_of_kindAt hk), ihLeft h.1, ihRight h.2.2,
        List.range'_append_1, List.range'_append_1, width, Nat.add_comm right.width]

end Phrase

namespace Grouped

variable {g : Grouped}

/-- What was copied into two adjacent ranges was copied into their union. -/
theorem copied_append
    (g : Grouped) {start middle stop : Nat} (hstart : start ≤ middle) (hstop : middle ≤ stop) :
    g.copied ⟨start, stop⟩ = g.copied ⟨start, middle⟩ ++ g.copied ⟨middle, stop⟩ := by
  unfold copied
  rw [← List.filterMap_append, ← Array.toList_append, Array.extract_append_extract,
    Nat.min_eq_left hstart, Nat.max_eq_right hstop]

theorem copied_of_has
    {start : Nat} {entries : List GroupedToken} (h : g.Has start entries) :
    g.copied ⟨start, start + entries.length⟩ = entries.filterMap (·.source) := by
  unfold copied
  rw [Array.toList_extract, List.extract_eq_take_drop, Nat.add_sub_cancel_left,
    ← List.prefix_iff_eq_take.mp h]

/-- Nothing was copied to an inserted parenthesis. -/
theorem copied_of_inserted
    {index : Nat} {mark : Punctuation} (h : g.isInserted index mark = true) :
    g.copied ⟨index, index + 1⟩ = [] := by
  unfold isInserted at h
  cases hentry : g.entries[index]? with
  | none => simp [hentry] at h
  | some entry =>
      simp only [hentry, Option.any_some, Bool.and_eq_true, Option.isNone_iff_eq_none] at h
      have := copied_of_has (has_singleton_iff.mpr hentry)
      simpa [h.2] using this

theorem copied_self
    (g : Grouped) (index : Nat) : g.copied ⟨index, index⟩ = [] := by
  simp [copied]

/-- A range into which consecutive tokens were copied is mapped back to them. -/
theorem sourceRange_of_copied
    {range : TokenRange} {start width : Nat} (hpos : 0 < width)
    (h : g.copied range = List.range' start width) :
    g.sourceRange range = ⟨start, start + width⟩ := by
  obtain ⟨less, rfl⟩ : ∃ less, width = less + 1 := ⟨width - 1, by omega⟩
  have hhead : (List.range' start (less + 1)).head? = some start := by
    simp [List.range'_succ]
  have hlast : (List.range' start (less + 1)).getLast? = some (start + less) := by
    simp [List.range'_concat]
  simp only [sourceRange, h, hhead, hlast, Nat.add_assoc]

end Grouped

/-! ## Entries -/

namespace Grouping

variable {tokens : Array Token}

/-- The entry is the copy of the token that it comes from, or an inserted parenthesis. -/
def Stems (tokens : Array Token) (e : GroupedToken) : Prop :=
  (∃ index, e.source = some index ∧ tokens[index]? = some e.token) ∨
    (e.source = none ∧ ∃ anchor mark, (mark = .lparen ∨ mark = .rparen) ∧
      e.token = Token.insertedAt anchor mark)

theorem stems_of_mem_copy
    (index : Nat) : ∀ e ∈ copy tokens index, Stems tokens e := by
  intro e he
  unfold copy at he
  obtain ⟨t, ht, rfl⟩ := Option.map_eq_some_iff.mp (Option.mem_toList.mp he)
  exact .inl ⟨index, rfl, ht⟩

theorem stems_of_mem_enclose
    (anchor : Nat) {entries : List GroupedToken} (h : ∀ e ∈ entries, Stems tokens e) :
    ∀ e ∈ enclose tokens anchor entries, Stems tokens e := by
  unfold enclose
  split
  · simp only [List.cons_append, List.forall_mem_cons, List.forall_mem_append, List.not_mem_nil,
      false_implies, implies_true, and_true]
    exact ⟨.inr ⟨rfl, _, _, .inl rfl, rfl⟩, h, .inr ⟨rfl, _, _, .inr rfl, rfl⟩⟩
  · exact h

end Grouping

namespace Phrase

variable {tokens : Array Token}

theorem stems_of_mem_groupedLater
    {parts : List Phrase}
    (hparts : ∀ p ∈ parts, ∀ start, ∀ e ∈ p.grouped tokens start, Stems tokens e) (start : Nat) :
    ∀ e ∈ groupedLater tokens parts start, Stems tokens e := by
  induction parts generalizing start with
  | nil => simp [groupedLater]
  | cons p ps ih =>
      rw [groupedLater, List.forall_mem_append, List.forall_mem_append]
      exact ⟨stems_of_mem_copy _, hparts p List.mem_cons_self _,
        ih (fun q hq => hparts q (List.mem_cons_of_mem p hq)) _⟩

theorem stems_of_mem_group
    {parts : List Phrase}
    (hparts : ∀ p ∈ parts, ∀ start, ∀ e ∈ p.grouped tokens start, Stems tokens e) (b : Bracket)
    (start : Nat) : ∀ e ∈ (group b parts).grouped tokens start, Stems tokens e := by
  rw [grouped, List.forall_mem_append, List.forall_mem_append]
  refine ⟨⟨stems_of_mem_copy _, ?_⟩, stems_of_mem_copy _⟩
  cases parts with
  | nil => simp [groupedParts]
  | cons p ps =>
      rw [groupedParts, List.forall_mem_append]
      exact ⟨hparts p List.mem_cons_self _,
        stems_of_mem_groupedLater (fun q hq => hparts q (List.mem_cons_of_mem p hq)) _⟩

/-- A grouped phrase is made of copies of tokens and of inserted parentheses. -/
theorem stems_of_mem_grouped
    (p : Phrase) (start : Nat) : ∀ e ∈ p.grouped tokens start, Stems tokens e := by
  induction p generalizing start with
  | leaf kind => exact stems_of_mem_copy start
  | group b parts ih => exact stems_of_mem_group ih b start
  | before op operand ih =>
      rw [grouped]
      refine stems_of_mem_enclose _ (List.forall_mem_append.mpr ?_)
      exact ⟨stems_of_mem_copy _, ih _⟩
  | after operand op ih =>
      rw [grouped]
      refine stems_of_mem_enclose _ (List.forall_mem_append.mpr ?_)
      exact ⟨ih _, stems_of_mem_copy _⟩
  | applied callee b parts ihCallee ihParts =>
      rw [grouped_applied]
      refine stems_of_mem_enclose _ (List.forall_mem_append.mpr ?_)
      exact ⟨ihCallee _, stems_of_mem_group ihParts b _⟩
  | between left op right ihLeft ihRight =>
      rw [grouped]
      refine stems_of_mem_enclose _ (List.forall_mem_append.mpr ?_)
      exact ⟨List.forall_mem_append.mpr ⟨ihLeft _, stems_of_mem_copy _⟩, ihRight _⟩

end Phrase

end ExprFront
