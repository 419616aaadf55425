import ExprFront.Proofs.Grouping.Phrased
import ExprFront.Proofs.Grouping.Wrapped

/-!
# Grouping keeps what it is given

A grouped expression consists of the tokens of its range, each once and in
order, and of inserted parentheses. Brackets pair up in it, inserted ones with
inserted ones, and there is one inserted pair for each operator and for each
bracket group after an operand.

The count goes along the entries from left to right. Whether a bracket group
stands after an operand depends on the tokens before it only, so segments are
counted between two states: whether an operand has just ended at their start,
and whether one has at their end. Pairs that are still to be inserted around a
segment are `due`.
-/

namespace ExprFront

open Grouping

/-! ## Groups after operands -/

/-- Whether an operand ends with a token of the kind, if one has or has not ended before it. -/
def TokenKind.endsOperand (k : TokenKind) (held : Bool) : Bool :=
  k.isOperand || k.closes.isSome || (held && k.after.isSome)

/-- The number of bracket groups that open directly after an operand. -/
def groupsAfter : (held : Bool) → List TokenKind → Nat
  | _, [] => 0
  | held, k :: ks => (held && k.opens.isSome).toNat + groupsAfter (k.endsOperand held) ks

theorem groupsAfter_opening
    (b : Bracket) (held : Bool) (ks : List TokenKind) :
    groupsAfter held (.punctuation b.opening :: ks) = held.toNat + groupsAfter false ks := by
  cases b <;> cases held <;> rfl

theorem groupsAfter_closing
    (b : Bracket) (held : Bool) (ks : List TokenKind) :
    groupsAfter held (.punctuation b.closing :: ks) = groupsAfter true ks := by
  have hopens : (TokenKind.punctuation b.closing).opens = none := by
    cases b <;> rfl
  have hends : (TokenKind.punctuation b.closing).endsOperand held = true := by
    cases b <;> rfl
  simp [groupsAfter, hopens, hends]

namespace Grouping

/-! ## Paired brackets -/

/-- The brackets of the entries pair up, inserted parentheses with inserted ones. -/
inductive Paired : List GroupedToken → Prop
  | nil : Paired []
  | single {e : GroupedToken} {rest : List GroupedToken} (hopens : e.token.kind.opens = none)
      (hcloses : e.token.kind.closes = none) (hrest : Paired rest) : Paired (e :: rest)
  | nested {b : Bracket} {first last : GroupedToken} {inner rest : List GroupedToken}
      (hopening : first.token.kind = .punctuation b.opening) (hinner : Paired inner)
      (hclosing : last.token.kind = .punctuation b.closing)
      (hsource : first.source.isNone = last.source.isNone) (hrest : Paired rest) :
      Paired (first :: (inner ++ last :: rest))

/-- Whether the entry is an inserted parenthesis of this kind. -/
def isInsertion (mark : Punctuation) (e : GroupedToken) : Bool :=
  e.token.isPunctuation mark && e.source.isNone

@[simp] theorem isInsertion_copied
    (mark : Punctuation) (t : Token) (index : Nat) : isInsertion mark ⟨t, some index⟩ = false := by
  simp [isInsertion]

@[simp] theorem isInsertion_inserted
    (mark : Punctuation) (t : Token) : isInsertion mark ⟨t, none⟩ = t.isPunctuation mark := by
  simp [isInsertion]

theorem isInserted_eq
    (g : Grouped) (index : Nat) (mark : Punctuation) :
    g.isInserted index mark = g.entries[index]?.any (isInsertion mark) := rfl

namespace Paired

variable {entries front back : List GroupedToken}

theorem append
    (hfront : Paired front) (hback : Paired back) : Paired (front ++ back) := by
  induction hfront with
  | nil => exact hback
  | single hopens hcloses _ ih => exact .single hopens hcloses ih
  | nested hopening hinner hclosing hsource _ _ ih =>
      rw [List.cons_append, List.append_assoc, List.cons_append]
      exact .nested hopening hinner hclosing hsource ih

/-- A bracket pair with paired entries inside. -/
theorem of_pair
    {b : Bracket} {first last : GroupedToken}
    (hopening : first.token.kind = .punctuation b.opening) (hentries : Paired entries)
    (hclosing : last.token.kind = .punctuation b.closing)
    (hsource : first.source.isNone = last.source.isNone) :
    Paired (first :: (entries ++ [last])) :=
  .nested hopening hentries hclosing hsource .nil

/-- The inserted parentheses alone are paired. -/
theorem filter_inserted
    (h : Paired entries) : Paired (entries.filter (·.source.isNone)) := by
  induction h with
  | nil => exact .nil
  | @single e rest hopens hcloses _ ih =>
      rw [List.filter_cons]
      split
      · exact .single hopens hcloses ih
      · exact ih
  | @nested b first last inner rest hopening _ hclosing hsource _ ihInner ihRest =>
      rw [List.filter_cons, List.filter_append, List.filter_cons, ← hsource]
      split
      · exact .nested hopening ihInner hclosing hsource ihRest
      · exact ihInner.append ihRest

/-- As many parentheses are inserted that open as that close. -/
theorem countP_eq
    (h : Paired entries) :
    entries.countP (isInsertion .lparen) = entries.countP (isInsertion .rparen) := by
  induction h with
  | nil => rfl
  | @single e rest hopens hcloses _ ih =>
      have hlparen : e.token.kind ≠ .punctuation .lparen := by
        intro hkind
        rw [hkind] at hopens
        cases hopens
      have hrparen : e.token.kind ≠ .punctuation .rparen := by
        intro hkind
        rw [hkind] at hcloses
        cases hcloses
      simp [isInsertion, Token.isPunctuation, hlparen, hrparen, ih]
  | @nested b first last inner rest hopening _ hclosing hsource _ ihInner ihRest =>
      have hpair : isInsertion .lparen first = isInsertion .rparen last ∧
          isInsertion .rparen first = false ∧ isInsertion .lparen last = false := by
        unfold isInsertion Token.isPunctuation
        rw [hopening, hclosing, hsource]
        cases b <;> cases last.source.isNone <;> decide
      simp only [List.countP_cons, List.countP_append, hpair.1, hpair.2.1, hpair.2.2, ihInner,
        ihRest, Bool.false_eq_true, if_false]
      omega

/-- Paired entries are balanced tokens. -/
theorem balanced
    (h : Paired entries) {g : Grouped} {start : Nat} (hhas : g.Has start entries) :
    Balanced g.tokens (fun _ => True) start (start + entries.length) := by
  induction h generalizing start with
  | nil => exact .empty _ _
  | @single e rest hopens hcloses _ ih =>
      obtain ⟨hentry, hrest⟩ := Grouped.has_cons_iff.mp hhas
      rw [List.length_cons, Nat.add_comm rest.length, ← Nat.add_assoc]
      refine .single (k := e.token.kind) ?_ hopens hcloses trivial (ih hrest)
      rw [Grouped.kindAt_tokens, hentry]
      rfl
  | @nested b first last inner rest hopening _ hclosing _ _ ihInner ihRest =>
      obtain ⟨hfirst, hmore⟩ := Grouped.has_cons_iff.mp hhas
      obtain ⟨hinner, hmore⟩ := Grouped.has_append_iff.mp hmore
      obtain ⟨hlast, hrest⟩ := Grouped.has_cons_iff.mp hmore
      have hlength : start + (first :: (inner ++ last :: rest)).length =
          start + 1 + inner.length + 1 + rest.length := by
        simp only [List.length_cons, List.length_append]
        omega
      rw [hlength]
      refine .nested (b := b) ?_ (ihInner hinner) ?_ (ihRest hrest)
      · rw [Grouped.kindAt_tokens, hfirst, Option.map_some, hopening]
      · rw [Grouped.kindAt_tokens, hlast, Option.map_some, hclosing]

/-- An entry that opens a bracket starts a pair. -/
theorem exists_pair
    (h : Paired entries) {g : Grouped} {start index : Nat} (hhas : g.Has start entries)
    {first : GroupedToken} (hlow : start ≤ index) (hhigh : index < start + entries.length)
    (hfirst : g.entries[index]? = some first) {b : Bracket}
    (hopening : first.token.kind = .punctuation b.opening) :
    ∃ inner last, Paired inner ∧ g.Has index (first :: (inner ++ [last])) ∧
      last.token.kind = .punctuation b.closing ∧ first.source.isNone = last.source.isNone := by
  have hopens := TokenKind.opens_eq_some_iff.mpr hopening
  induction h generalizing start with
  | nil => exact absurd hhigh (by simpa using hlow)
  | @single e rest hnone _ _ ih =>
      obtain ⟨hentry, hrest⟩ := Grouped.has_cons_iff.mp hhas
      rcases Nat.eq_or_lt_of_le hlow with rfl | hlow
      · obtain rfl : e = first := Option.some.inj (hentry.symm.trans hfirst)
        rw [hnone] at hopens
        cases hopens
      · rw [List.length_cons] at hhigh
        exact ih hrest hlow (by omega)
  | @nested b' opener closer inner rest hopener hinner hcloser hsource _ ihInner ihRest =>
      obtain ⟨hentry, hmore⟩ := Grouped.has_cons_iff.mp hhas
      obtain ⟨hhasInner, hmore⟩ := Grouped.has_append_iff.mp hmore
      obtain ⟨hlast, hrest⟩ := Grouped.has_cons_iff.mp hmore
      simp only [List.length_cons, List.length_append] at hhigh
      rcases Nat.eq_or_lt_of_le hlow with rfl | hlow
      · obtain rfl : opener = first := Option.some.inj (hentry.symm.trans hfirst)
        obtain rfl : b' = b := by
          have := TokenKind.opens_eq_some_iff.mpr hopener
          exact Option.some.inj (this.symm.trans hopens)
        refine ⟨inner, closer, hinner, ?_, hcloser, hsource⟩
        exact Grouped.has_cons_iff.mpr ⟨hentry, Grouped.has_append_iff.mpr ⟨hhasInner,
          Grouped.has_singleton_iff.mpr hlast⟩⟩
      · by_cases hinside : index < start + 1 + inner.length
        · exact ihInner hhasInner hlow hinside
        · rcases Nat.eq_or_lt_of_le (Nat.le_of_not_lt hinside) with rfl | hbehind
          · obtain rfl : closer = first := Option.some.inj (hlast.symm.trans hfirst)
            rw [hcloser] at hopens
            cases b' <;> cases hopens
          · exact ihRest hrest hbehind (by omega)

/-- The scope of an inserted parenthesis ends with an inserted one. -/
theorem exists_matching
    {g : Grouped} (h : Paired g.entries.toList) {index : Nat}
    (hinserted : g.isInserted index .lparen = true) :
    ∃ scope, Scope.matching g.tokens ⟨index, g.tokens.size⟩ .paren = .ok scope ∧
      g.isInserted (scope.stop - 1) .rparen = true := by
  rw [isInserted_eq, Option.any_eq_true] at hinserted
  obtain ⟨first, hfirst, hmark⟩ := hinserted
  simp only [isInsertion, Token.isPunctuation, Bool.and_eq_true, beq_iff_eq] at hmark
  have hindex := (Array.getElem?_eq_some_iff.mp hfirst).1
  have hall : g.Has 0 g.entries.toList := List.prefix_rfl
  obtain ⟨inner, last, hinner, hpair, hlast, hsource⟩ := h.exists_pair hall (Nat.zero_le index)
    (by simpa using hindex) hfirst (b := .paren) hmark.1
  obtain ⟨-, hmore⟩ := Grouped.has_cons_iff.mp hpair
  obtain ⟨hhas, hend⟩ := Grouped.has_append_iff.mp hmore
  have hentry := Grouped.has_singleton_iff.mp hend
  have hopening : kindAt g.tokens index = some (.punctuation Bracket.paren.opening) := by
    rw [Grouped.kindAt_tokens, hfirst, Option.map_some, hmark.1]
    rfl
  have hclosing : kindAt g.tokens (index + 1 + inner.length) =
      some (.punctuation Bracket.paren.closing) := by
    rw [Grouped.kindAt_tokens, hentry, Option.map_some, hlast]
  refine ⟨_, Scope.matching_of_balanced hopening (hinner.balanced hhas) hclosing
    (lt_size_of_kindAt hclosing), ?_⟩
  rw [Nat.add_sub_cancel, isInserted_eq, hentry, Option.any_some, isInsertion,
    Token.isPunctuation, hlast, ← hsource, hmark.2]
  rfl

end Paired

/-! ## Counted segments -/

/-- The kinds of the copied tokens among the entries. -/
def copiedKinds (entries : List GroupedToken) : List TokenKind :=
  entries.filterMap fun e => e.source.map fun _ => e.token.kind

@[simp] theorem copiedKinds_nil : copiedKinds [] = [] := rfl

@[simp] theorem copiedKinds_copied
    (t : Token) (index : Nat) (entries : List GroupedToken) :
    copiedKinds (⟨t, some index⟩ :: entries) = t.kind :: copiedKinds entries := rfl

@[simp] theorem copiedKinds_inserted
    (t : Token) (entries : List GroupedToken) :
    copiedKinds (⟨t, none⟩ :: entries) = copiedKinds entries := rfl

@[simp] theorem copiedKinds_append
    (front back : List GroupedToken) :
    copiedKinds (front ++ back) = copiedKinds front ++ copiedKinds back :=
  List.filterMap_append

/-- The brackets of a segment pair up, and so many pairs of parentheses are due as its operators
and its groups after operands are more than its inserted pairs. -/
structure Tallied (held held' : Bool) (due : Nat) (entries : List GroupedToken) : Prop where
  paired : Paired entries
  tally : ∀ rest, (copiedKinds entries).countP TokenKind.isOperator +
      groupsAfter held (copiedKinds entries ++ rest) =
    entries.countP (isInsertion .lparen) + due + groupsAfter held' rest

namespace Tallied

variable {held middle held' : Bool} {due more : Nat} {entries front back : List GroupedToken}

theorem nil (held : Bool) : Tallied held held 0 [] :=
  ⟨.nil, fun rest => by simp [copiedKinds]⟩

theorem append
    (hfront : Tallied held middle due front) (hback : Tallied middle held' more back) :
    Tallied held held' (due + more) (front ++ back) where
  paired := hfront.paired.append hback.paired
  tally rest := by
    have hfirst := hfront.tally (copiedKinds back ++ rest)
    have hsecond := hback.tally rest
    rw [copiedKinds_append, List.countP_append, List.countP_append, List.append_assoc]
    omega

/-- The copy of a token that is no bracket. -/
theorem of_copy
    {tokens : Array Token} {index : Nat} {k : TokenKind} (hk : kindAt tokens index = some k)
    (hopens : k.opens = none) (hcloses : k.closes = none) (held : Bool) :
    Tallied held (k.endsOperand held) k.isOperator.toNat (copy tokens index) := by
  obtain ⟨t, ht, rfl⟩ := kindAt_eq_some_iff.mp hk
  rw [copy_of_getElem? ht]
  refine ⟨.single hopens hcloses .nil, fun rest => ?_⟩
  cases hoperator : t.kind.isOperator <;>
    simp [copiedKinds, groupsAfter, hopens, hoperator, isInsertion]

/-- A copied bracket group. -/
theorem of_group
    {tokens : Array Token} {first last : Nat} {b : Bracket}
    (hopening : kindAt tokens first = some (.punctuation b.opening))
    (h : Tallied false held' due entries)
    (hclosing : kindAt tokens last = some (.punctuation b.closing)) (held : Bool) :
    Tallied held true (held.toNat + due) (copy tokens first ++ entries ++ copy tokens last) := by
  obtain ⟨t, ht, hkind⟩ := kindAt_eq_some_iff.mp hopening
  obtain ⟨t', ht', hkind'⟩ := kindAt_eq_some_iff.mp hclosing
  rw [copy_of_getElem? ht, copy_of_getElem? ht']
  refine ⟨.of_pair hkind h.paired hkind' rfl, fun rest => ?_⟩
  have hinner := h.tally (.punctuation b.closing :: rest)
  rw [groupsAfter_closing] at hinner
  have hopener : (TokenKind.punctuation b.opening).isOperator = false := rfl
  have hcloser : (TokenKind.punctuation b.closing).isOperator = false := rfl
  simp only [List.cons_append, List.nil_append, List.append_assoc, copiedKinds_copied,
    copiedKinds_append, copiedKinds_nil, hkind, hkind', List.countP_cons, List.countP_append,
    List.countP_nil, isInsertion_copied, hopener, hcloser, groupsAfter_opening,
    Bool.false_eq_true, if_false]
  omega

/-- Parentheses inserted around a segment settle one pair that is due. -/
theorem enclose
    {tokens : Array Token} {anchor : Nat} (h : Tallied held held' (due + 1) entries)
    (hanchor : anchor < tokens.size) (hentries : entries ≠ []) :
    Tallied held held' due (enclose tokens anchor entries) := by
  obtain ⟨first, more, rfl⟩ := List.exists_cons_of_ne_nil hentries
  have hlast : tokens[anchor]? = some tokens[anchor] := Array.getElem?_eq_getElem hanchor
  simp only [Grouping.enclose, List.head?_cons, hlast, List.cons_append]
  refine ⟨.of_pair (b := .paren) rfl h.paired rfl rfl, fun rest => ?_⟩
  have htally := h.tally rest
  have hopening : (first.token.insertedAt .lparen).isPunctuation .lparen = true := rfl
  have hclosing : (tokens[anchor].insertedAt .rparen).isPunctuation .lparen = false := rfl
  rw [copiedKinds_inserted, ← List.cons_append, copiedKinds_append, copiedKinds_inserted,
    copiedKinds_nil, List.append_nil, List.countP_cons, List.countP_append]
  simp only [List.countP_cons, List.countP_nil, isInsertion_inserted, hopening, hclosing,
    Bool.false_eq_true, if_false, if_true] at htally ⊢
  omega

end Tallied

end Grouping

/-! ## Phrases -/

namespace Phrase

variable {tokens : Array Token}

theorem tallied_later
    {parts : List Phrase}
    (hparts : ∀ p ∈ parts, ∀ start, p.Spells tokens start →
      Tallied false true 0 (p.grouped tokens start))
    {start : Nat} (h : SpellsLater tokens parts start) (held : Bool) :
    ∃ held', Tallied held held' 0 (groupedLater tokens parts start) := by
  induction parts generalizing start held with
  | nil => exact ⟨held, .nil held⟩
  | cons p ps ih =>
      obtain ⟨hcomma, hp, hps⟩ := h
      have hhead := hparts p List.mem_cons_self _ hp
      obtain ⟨held', htail⟩ := ih (fun q hq => hparts q (List.mem_cons_of_mem p hq)) hps true
      have hfirst := Tallied.of_copy hcomma rfl rfl held
      have hends : TokenKind.endsOperand (.punctuation .comma) held = false := by
        cases held <;> rfl
      rw [hends] at hfirst
      exact ⟨held', hfirst.append (hhead.append htail)⟩

/-- A bracket group is one pair short exactly if it stands after an operand. -/
theorem tallied_group
    {b : Bracket} {parts : List Phrase}
    (hparts : ∀ p ∈ parts, ∀ start, p.Spells tokens start →
      Tallied false true 0 (p.grouped tokens start))
    {start : Nat} (h : (group b parts).Spells tokens start) (held : Bool) :
    Tallied held true held.toNat ((group b parts).grouped tokens start) := by
  obtain ⟨hopening, hinner, hclosing⟩ := h
  rw [grouped]
  cases parts with
  | nil => exact (Tallied.nil false).of_group hopening hclosing held
  | cons p ps =>
      have hhead := hparts p List.mem_cons_self _ hinner.1
      obtain ⟨held', htail⟩ :=
        tallied_later (fun q hq => hparts q (List.mem_cons_of_mem p hq)) hinner.2 true
      exact (hhead.append htail).of_group hopening hclosing held

/-- A grouped phrase is an operand, and no pair of parentheses is due for it. -/
theorem tallied_grouped
    {p : Phrase} {start : Nat} (h : p.Spells tokens start) :
    Tallied false true 0 (p.grouped tokens start) := by
  induction p generalizing start with
  | leaf kind =>
      obtain ⟨k, hk, hleaf⟩ := exists_of_spells_leaf h
      have hoperand := NodeKind.isOperand_of_ofToken? hleaf
      obtain ⟨hoperator, hopens, hcloses⟩ := TokenKind.of_isOperand hoperand
      have hcopy := Tallied.of_copy hk hopens hcloses false
      rw [grouped]
      simpa [TokenKind.endsOperand, TokenKind.isOperator, hoperand, hoperator] using hcopy
  | group b parts ih => exact tallied_group (fun p hp start hs => ih p hp hs) h false
  | before op operand ih =>
      obtain ⟨k, hk, hbefore⟩ := exists_of_spells_before h
      obtain ⟨o, rfl, -⟩ := TokenKind.exists_operator_of_before hbefore
      have hsize := lt_size_of_kindAt hk
      have hcopy : Tallied false false 1 (copy tokens start) := Tallied.of_copy hk rfl rfl false
      rw [grouped]
      exact (hcopy.append (ih h.2)).enclose hsize (by simp [copy_ne_nil hsize])
  | after operand op ih =>
      obtain ⟨k, hk, hafter⟩ := exists_of_spells_after h
      obtain ⟨o, rfl, -⟩ := TokenKind.exists_operator_of_after hafter
      have hsize := lt_size_of_kindAt hk
      have hcopy := Tallied.of_copy hk rfl rfl true
      have hends : TokenKind.endsOperand (.operator o) true = true := by
        simp [TokenKind.endsOperand, hafter]
      rw [hends] at hcopy
      rw [grouped]
      exact ((ih h.1).append hcopy).enclose hsize (by simp [copy_ne_nil hsize])
  | applied callee b parts ihCallee ihParts =>
      obtain ⟨hcallee, hgroup⟩ := spells_applied_iff.mp h
      have hclosing := lt_size_of_kindAt hgroup.2.2
      have hsize := lt_size_of_kindAt hgroup.1
      have hpart := tallied_group (fun p hp start hs => ihParts p hp hs) hgroup true
      rw [grouped]
      have hfirst : callee.grouped tokens start ++
          (group b parts).grouped tokens (start + callee.width) ≠ [] := by
        simp [grouped, copy_ne_nil hsize]
      exact ((ihCallee hcallee).append hpart).enclose hclosing hfirst
  | between left op right ihLeft ihRight =>
      obtain ⟨k, hk, hbetween⟩ := exists_of_spells_between h
      have hnone := TokenKind.after_eq_none_of_between hbetween
      obtain ⟨o, rfl, -⟩ := TokenKind.exists_operator_of_between hbetween
      have hsize := lt_size_of_kindAt hk
      have hcopy := Tallied.of_copy hk rfl rfl true
      have hends : TokenKind.endsOperand (.operator o) true = false := by
        simp [TokenKind.endsOperand, hnone, TokenKind.isOperand]
      rw [hends] at hcopy
      rw [grouped]
      exact (((ihLeft h.1).append hcopy).append (ihRight h.2.2)).enclose hsize
        (by simp [copy_ne_nil hsize])

end Phrase

/-! ## Grouped tokens -/

namespace Grouping

variable {tokens : Array Token}

/-- The copied tokens have the kinds of the tokens that they come from. -/
theorem copiedKinds_eq
    {entries : List GroupedToken} (h : ∀ e ∈ entries, Stems tokens e) :
    copiedKinds entries = (entries.filterMap (·.source)).filterMap (kindAt tokens) := by
  rw [List.filterMap_filterMap]
  refine List.filterMap_congr fun e he => ?_
  rcases h e he with ⟨index, hsource, ht⟩ | ⟨hsource, -⟩
  · simp [hsource, kindAt, ht]
  · simp [hsource]

theorem filterMap_kindAt_range'
    {start width : Nat} (h : start + width ≤ tokens.size) :
    (List.range' start width).filterMap (kindAt tokens) =
      (tokens.extract start (start + width)).toList.map (·.kind) := by
  rw [Array.toList_extract, List.extract_eq_take_drop, Nat.add_sub_cancel_left]
  induction width generalizing start with
  | zero => simp
  | succ width ih =>
      have hstart : start < tokens.toList.length := by
        rw [Array.length_toList]
        omega
      have hkind : kindAt tokens start = some tokens.toList[start].kind := by
        simp [kindAt, show start < tokens.size by omega]
      rw [List.range'_succ, List.filterMap_cons_some hkind, ih (by omega),
        List.drop_eq_getElem_cons hstart, List.take_succ_cons, List.map_cons]

end Grouping

/-- The grouped tokens are those of the range, with parentheses inserted in pairs. -/
structure Grouped.Faithful (g : Grouped) (tokens : Array Token) (range : TokenRange) : Prop where
  size_eq : g.sources.size = g.tokens.size
  /-- Each token of the range is copied once, in order. -/
  sources_eq : g.sources.toList.filterMap id = List.range' range.start range.length
  /-- What is copied is the input token. -/
  copied : ∀ e ∈ g.entries, ∀ index, e.source = some index → tokens[index]? = some e.token
  /-- What is inserted is a parenthesis. -/
  inserted : ∀ e ∈ g.entries, e.source = none →
    e.token.kind = .punctuation .lparen ∨ e.token.kind = .punctuation .rparen
  /-- The brackets pair up, inserted ones with inserted ones. -/
  paired : Paired g.entries.toList
  /-- The inserted parentheses alone pair up. -/
  paired_inserted : Paired (g.entries.toList.filter (·.source.isNone))
  /-- The scope of an inserted parenthesis ends with an inserted one. -/
  matching : ∀ index, g.isInserted index .lparen = true → ∃ scope,
    Scope.matching g.tokens ⟨index, g.tokens.size⟩ .paren = .ok scope ∧
      g.isInserted (scope.stop - 1) .rparen = true
  /-- One pair is inserted for each operator and for each bracket group after an operand. -/
  count : ∀ mark, mark = .lparen ∨ mark = .rparen →
    g.entries.toList.countP (isInsertion mark) =
      ((tokens.extract range.start range.stop).toList.map (·.kind)).countP TokenKind.isOperator +
        groupsAfter false ((tokens.extract range.start range.stop).toList.map (·.kind))

/-- What grouping yields is faithful to its range: no token is lost, doubled or moved, and one
pair of parentheses is inserted for each application. -/
theorem faithful_of_groupTokens
    (tokens : Array Token) (range : TokenRange) (limit : Nat) (g : Grouped)
    (h : groupTokens tokens range limit = .ok g) : g.Faithful tokens range := by
  obtain ⟨p, hcovers, -, hentries⟩ := exists_covers_of_groupTokens h
  have hlist : g.entries.toList = p.grouped tokens range.start := by rw [hentries]
  have hstems : ∀ e ∈ g.entries.toList, Stems tokens e := by
    rw [hlist]
    exact p.stems_of_mem_grouped range.start
  have hlength : range.length = p.width := by
    have hstop := hcovers.stop_eq
    unfold TokenRange.length
    omega
  have hsources : g.entries.toList.filterMap (·.source) =
      List.range' range.start range.length := by
    rw [hlist, hlength]
    exact Phrase.sources_grouped hcovers.spells
  have htallied := Phrase.tallied_grouped hcovers.spells
  rw [← hlist] at htallied
  have hkinds : copiedKinds g.entries.toList =
      (tokens.extract range.start range.stop).toList.map (·.kind) := by
    rw [copiedKinds_eq hstems, hsources, hlength, ← hcovers.stop_eq]
    exact filterMap_kindAt_range' hcovers.spells.le_size
  have hcount : g.entries.toList.countP (isInsertion .lparen) =
      ((tokens.extract range.start range.stop).toList.map (·.kind)).countP TokenKind.isOperator +
        groupsAfter false ((tokens.extract range.start range.stop).toList.map (·.kind)) := by
    have htally := htallied.tally []
    rw [List.append_nil, hkinds] at htally
    simpa [groupsAfter] using htally.symm
  refine ⟨by simp [Grouped.sources, Grouped.tokens], ?_, ?_, ?_, htallied.paired,
    htallied.paired.filter_inserted, fun index => htallied.paired.exists_matching, ?_⟩
  · simpa [Grouped.sources, List.filterMap_map, Function.comp_def] using hsources
  · intro e he index hsource
    rcases hstems e (Array.mem_toList_iff.mpr he) with ⟨found, hfound, ht⟩ | ⟨hnone, -⟩
    · rw [hsource] at hfound
      cases hfound
      exact ht
    · rw [hsource] at hnone
      cases hnone
  · intro e he hsource
    rcases hstems e (Array.mem_toList_iff.mpr he) with ⟨found, hfound, -⟩ |
      ⟨-, anchor, mark, hmark, htoken⟩
    · rw [hsource] at hfound
      cases hfound
    · rw [htoken]
      rcases hmark with rfl | rfl
      · exact .inl rfl
      · exact .inr rfl
  · rintro mark (rfl | rfl)
    · exact hcount
    · rw [← htallied.paired.countP_eq, hcount]

/-- The tokens of `++(a)(b)`. -/
def Grouping.sampleCall : Array Token :=
  #[⟨.operator .plusPlus, "++", ⟨0, 2⟩, 1, 1, 1⟩, ⟨.punctuation .lparen, "(", ⟨2, 3⟩, 1, 3, 1⟩,
    ⟨.identifier, "a", ⟨3, 4⟩, 1, 4, 1⟩, ⟨.punctuation .rparen, ")", ⟨4, 5⟩, 1, 5, 1⟩,
    ⟨.punctuation .lparen, "(", ⟨5, 6⟩, 1, 6, 1⟩, ⟨.identifier, "b", ⟨6, 7⟩, 1, 7, 1⟩,
    ⟨.punctuation .rparen, ")", ⟨7, 8⟩, 1, 8, 1⟩]

/-- Only the second bracket group stands after an operand, so two pairs are inserted. -/
theorem faithful_of_groupTokens_sample :
    ∃ g, groupTokens sampleCall ⟨0, 7⟩ 10 = .ok g ∧ g.Faithful sampleCall ⟨0, 7⟩ ∧
      g.entries.toList.countP (isInsertion .lparen) = 2 := by
  have hok : (groupTokens sampleCall ⟨0, 7⟩ 10).isOk = true := by decide +kernel
  cases hg : groupTokens sampleCall ⟨0, 7⟩ 10 with
  | error e =>
      rw [hg] at hok
      cases hok
  | ok g =>
      have hfaithful := faithful_of_groupTokens sampleCall ⟨0, 7⟩ 10 g hg
      exact ⟨g, rfl, hfaithful, (hfaithful.count .lparen (.inl rfl)).trans (by decide)⟩

end ExprFront
