import ExprFront.Proofs.Grouping.Faithful

/-!
# Fully grouped terms

A grouped expression is a term of a grammar without priorities: an operand, a
bracket group of terms, or one application between inserted parentheses. The
brackets of groups are copied ones, so the first token of a term tells which of
the three it is, and the token after the first operand of an application tells
which application it is. Hence a list of grouped tokens is a term in one way
only.
-/

namespace ExprFront.Grouping

/-! ## The grammar -/

mutual

/-- The entries are a term: an operand, a copied bracket group, or an application between inserted
parentheses. The phrase says how they are one. -/
inductive IsTerm : Phrase → List GroupedToken → Prop
  | leaf {e : GroupedToken} {kind : NodeKind} (hcopy : e.source.isSome = true)
      (hleaf : NodeKind.ofToken? e.token.kind = some kind) : IsTerm (.leaf kind) [e]
  | group {b : Bracket} {parts : List Phrase} {entries : List GroupedToken}
      (hgroup : IsGroup b parts entries) : IsTerm (.group b parts) entries
  | application {p : Phrase} {first last : GroupedToken} {inner : List GroupedToken}
      (hopening : isInsertion .lparen first = true) (hinner : IsApplication p inner)
      (hclosing : isInsertion .rparen last = true) : IsTerm p (first :: (inner ++ [last]))

/-- The entries are one application of an operation to terms. -/
inductive IsApplication : Phrase → List GroupedToken → Prop
  | before {op : Operation} {operand : Phrase} {sign : GroupedToken} {entries : List GroupedToken}
      (hcopy : sign.source.isSome = true) (hsign : sign.token.kind.before = some op)
      (hoperand : IsTerm operand entries) : IsApplication (.before op operand) (sign :: entries)
  | after {op : Operation} {operand : Phrase} {sign : GroupedToken} {entries : List GroupedToken}
      (hoperand : IsTerm operand entries) (hcopy : sign.source.isSome = true)
      (hsign : sign.token.kind.after = some op) :
      IsApplication (.after operand op) (entries ++ [sign])
  | applied {callee : Phrase} {b : Bracket} {parts : List Phrase}
      {entries later : List GroupedToken} (hcallee : IsTerm callee entries)
      (hgroup : IsGroup b parts later) : IsApplication (.applied callee b parts) (entries ++ later)
  | between {op : Operation} {left right : Phrase} {sign : GroupedToken}
      {entries later : List GroupedToken} (hleft : IsTerm left entries)
      (hcopy : sign.source.isSome = true) (hsign : sign.token.kind.between = some op)
      (hright : IsTerm right later) :
      IsApplication (.between left op right) (entries ++ sign :: later)

/-- The entries are a copied bracket group of terms with commas between them. -/
inductive IsGroup : Bracket → List Phrase → List GroupedToken → Prop
  | mk {b : Bracket} {parts : List Phrase} {first last : GroupedToken}
      {inner : List GroupedToken} (hfirst : first.source.isSome = true)
      (hopening : first.token.kind = .punctuation b.opening) (hparts : IsParts parts inner)
      (hlast : last.source.isSome = true)
      (hclosing : last.token.kind = .punctuation b.closing) :
      IsGroup b parts (first :: (inner ++ [last]))

/-- The entries are the parts of a bracket group. -/
inductive IsParts : List Phrase → List GroupedToken → Prop
  | nil : IsParts [] []
  | cons {p : Phrase} {parts : List Phrase} {entries later : List GroupedToken}
      (hp : IsTerm p entries) (hlater : IsLater parts later) :
      IsParts (p :: parts) (entries ++ later)

/-- The entries are the later parts of a bracket group, each with the comma before it. -/
inductive IsLater : List Phrase → List GroupedToken → Prop
  | nil : IsLater [] []
  | cons {p : Phrase} {parts : List Phrase} {comma : GroupedToken}
      {entries later : List GroupedToken} (hcopy : comma.source.isSome = true)
      (hcomma : comma.token.kind = .punctuation .comma) (hp : IsTerm p entries)
      (hlater : IsLater parts later) : IsLater (p :: parts) (comma :: (entries ++ later))

end

/-! ## First tokens -/

theorem not_isInsertion_of_copy
    {e : GroupedToken} (hcopy : e.source.isSome = true) (mark : Punctuation) :
    isInsertion mark e ≠ true := by
  obtain ⟨index, hsource⟩ := Option.isSome_iff_exists.mp hcopy
  simp [isInsertion, hsource]

theorem kind_of_isInsertion
    {e : GroupedToken} {mark : Punctuation} (h : isInsertion mark e = true) :
    e.token.kind = .punctuation mark := by
  simp only [isInsertion, Token.isPunctuation, Bool.and_eq_true, beq_iff_eq] at h
  exact h.1

/-- The entry may be the first one of a term. -/
def StartsTerm (e : GroupedToken) : Prop :=
  e.token.kind.isOperand = true ∨ e.token.kind.opens.isSome = true

theorem IsTerm.exists_first
    {p : Phrase} {entries : List GroupedToken} (h : IsTerm p entries) :
    ∃ first rest, entries = first :: rest ∧ StartsTerm first := by
  cases h with
  | leaf hcopy hleaf => exact ⟨_, _, rfl, .inl (NodeKind.isOperand_of_ofToken? hleaf)⟩
  | group hgroup =>
      obtain ⟨-, hopening, -, -, -⟩ := hgroup
      refine ⟨_, _, rfl, .inr ?_⟩
      rw [TokenKind.opens_eq_some_iff.mpr hopening]
      rfl
  | application hopening =>
      refine ⟨_, _, rfl, .inr ?_⟩
      rw [kind_of_isInsertion hopening]
      rfl

/-- No operator before an operand and no closing bracket is the first token of a term. -/
theorem StartsTerm.eq_none
    {e : GroupedToken} (h : StartsTerm e) :
    e.token.kind.before = none ∧ e.token.kind.closes = none := by
  rcases h with hoperand | hopens
  · exact ⟨TokenKind.before_eq_none_of_isOperand hoperand, (TokenKind.of_isOperand hoperand).2.2⟩
  · obtain ⟨b, hb⟩ := Option.isSome_iff_exists.mp hopens
    rw [TokenKind.opens_eq_some_iff.mp hb]
    cases b <;> exact ⟨rfl, rfl⟩

theorem IsTerm.not_before
    {p : Phrase} {sign : GroupedToken} {entries rest rest' : List GroupedToken}
    (h : IsTerm p entries) (heq : sign :: rest = entries ++ rest') (op : Operation) :
    sign.token.kind.before ≠ some op := by
  obtain ⟨first, more, rfl, hstarts⟩ := h.exists_first
  obtain ⟨rfl, -⟩ := List.cons_eq_cons.mp heq
  rw [hstarts.eq_none.1]
  exact Option.some_ne_none op ∘ Eq.symm

theorem IsTerm.not_closing
    {p : Phrase} {last : GroupedToken} {entries rest rest' : List GroupedToken}
    (h : IsTerm p entries) (heq : last :: rest = entries ++ rest') (b : Bracket) :
    last.token.kind ≠ .punctuation b.closing := by
  obtain ⟨first, more, rfl, hstarts⟩ := h.exists_first
  obtain ⟨rfl, -⟩ := List.cons_eq_cons.mp heq
  intro hclosing
  have hnone := hstarts.eq_none.2
  rw [TokenKind.closes_eq_some_iff.mpr hclosing] at hnone
  cases hnone

/-- The first entry of a group is copied and opens a bracket. -/
theorem IsGroup.first_of_eq_append
    {b : Bracket} {parts : List Phrase} {e : GroupedToken} {entries rest rest' : List GroupedToken}
    (h : IsGroup b parts entries) (heq : e :: rest = entries ++ rest') :
    e.source.isSome = true ∧ e.token.kind.opens ≠ none := by
  obtain ⟨hfirst, hopening, -, -, -⟩ := h
  obtain ⟨rfl, -⟩ := List.cons_eq_cons.mp heq
  rw [TokenKind.opens_eq_some_iff.mpr hopening]
  exact ⟨hfirst, Option.some_ne_none b⟩

/-! ## Terms are unique -/

mutual

/-- Of all the lists that start alike at most one is a term, and it is one in one way. -/
theorem IsTerm.unique
    {p : Phrase} {entries : List GroupedToken} (h : IsTerm p entries) :
    ∀ {q : Phrase} {entries' rest rest' : List GroupedToken}, IsTerm q entries' →
      entries ++ rest = entries' ++ rest' → p = q ∧ entries = entries' := by
  match h with
  | .leaf hcopy hleaf =>
      intro q entries' rest rest' h' heq
      have hopens := (TokenKind.of_isOperand (NodeKind.isOperand_of_ofToken? hleaf)).2.1
      cases h' with
      | leaf hcopy' hleaf' =>
          obtain ⟨rfl, -⟩ := List.cons_eq_cons.mp heq
          cases hleaf.symm.trans hleaf'
          exact ⟨rfl, rfl⟩
      | group hgroup' => exact absurd hopens (hgroup'.first_of_eq_append heq).2
      | application hopening' =>
          obtain ⟨rfl, -⟩ := List.cons_eq_cons.mp heq
          exact absurd hopening' (not_isInsertion_of_copy hcopy _)
  | .group hgroup =>
      intro q entries' rest rest' h' heq
      cases h' with
      | leaf hcopy' hleaf' =>
          have hopens := (TokenKind.of_isOperand (NodeKind.isOperand_of_ofToken? hleaf')).2.1
          exact absurd hopens (hgroup.first_of_eq_append heq.symm).2
      | group hgroup' =>
          obtain ⟨rfl, rfl, rfl⟩ := hgroup.unique hgroup' heq
          exact ⟨rfl, rfl⟩
      | application hopening' =>
          exact absurd hopening' (not_isInsertion_of_copy (hgroup.first_of_eq_append heq.symm).1 _)
  | .application hopening hinner hclosing =>
      intro q entries' rest rest' h' heq
      cases h' with
      | leaf hcopy' hleaf' =>
          obtain ⟨rfl, -⟩ := List.cons_eq_cons.mp heq
          exact absurd hopening (not_isInsertion_of_copy hcopy' _)
      | group hgroup' =>
          exact absurd hopening (not_isInsertion_of_copy (hgroup'.first_of_eq_append heq).1 _)
      | application hopening' hinner' hclosing' =>
          simp only [List.cons_append, List.append_assoc, List.cons.injEq] at heq
          obtain ⟨rfl, heq⟩ := heq
          obtain ⟨rfl, rfl⟩ := hinner.unique hinner' heq
          simp only [List.nil_append, List.append_cancel_left_eq, List.cons.injEq] at heq
          obtain ⟨rfl, -⟩ := heq
          exact ⟨rfl, rfl⟩

theorem IsApplication.unique
    {p : Phrase} {entries : List GroupedToken} (h : IsApplication p entries) :
    ∀ {q : Phrase} {entries' rest rest' : List GroupedToken}, IsApplication q entries' →
      entries ++ rest = entries' ++ rest' → p = q ∧ entries = entries' := by
  match h with
  | .before hcopy hsign hoperand =>
      intro q entries' rest rest' h' heq
      cases h' with
      | before hcopy' hsign' hoperand' =>
          obtain ⟨rfl, hbehind⟩ := List.cons_eq_cons.mp heq
          cases hsign.symm.trans hsign'
          obtain ⟨rfl, rfl⟩ := hoperand.unique hoperand' hbehind
          exact ⟨rfl, rfl⟩
      | after hoperand' =>
          rw [List.append_assoc] at heq
          exact absurd hsign (hoperand'.not_before heq _)
      | applied hcallee' =>
          rw [List.append_assoc] at heq
          exact absurd hsign (hcallee'.not_before heq _)
      | between hleft' =>
          rw [List.append_assoc] at heq
          exact absurd hsign (hleft'.not_before heq _)
  | .after hoperand hcopy hsign =>
      intro q entries' rest rest' h' heq
      rw [List.append_assoc] at heq
      cases h' with
      | before hcopy' hsign' hoperand' => exact absurd hsign' (hoperand.not_before heq.symm _)
      | after hoperand' hcopy' hsign' =>
          rw [List.append_assoc] at heq
          obtain ⟨rfl, rfl⟩ := hoperand.unique hoperand' heq
          obtain ⟨rfl, -⟩ := List.cons_eq_cons.mp (List.append_cancel_left heq)
          cases hsign.symm.trans hsign'
          exact ⟨rfl, rfl⟩
      | applied hcallee' hgroup' =>
          rw [List.append_assoc] at heq
          obtain ⟨rfl, rfl⟩ := hoperand.unique hcallee' heq
          exact absurd (TokenKind.opens_eq_none_of_after hsign)
            (hgroup'.first_of_eq_append (List.append_cancel_left heq)).2
      | between hleft' hcopy' hsign' hright' =>
          rw [List.append_assoc] at heq
          obtain ⟨rfl, rfl⟩ := hoperand.unique hleft' heq
          obtain ⟨rfl, -⟩ := List.cons_eq_cons.mp (List.append_cancel_left heq)
          cases (TokenKind.after_eq_none_of_between hsign').symm.trans hsign
  | .applied hcallee hgroup =>
      intro q entries' rest rest' h' heq
      rw [List.append_assoc] at heq
      cases h' with
      | before hcopy' hsign' hoperand' => exact absurd hsign' (hcallee.not_before heq.symm _)
      | after hoperand' hcopy' hsign' =>
          rw [List.append_assoc] at heq
          obtain ⟨rfl, rfl⟩ := hcallee.unique hoperand' heq
          exact absurd (TokenKind.opens_eq_none_of_after hsign')
            (hgroup.first_of_eq_append (List.append_cancel_left heq).symm).2
      | applied hcallee' hgroup' =>
          rw [List.append_assoc] at heq
          obtain ⟨rfl, rfl⟩ := hcallee.unique hcallee' heq
          obtain ⟨rfl, rfl, rfl⟩ := hgroup.unique hgroup' (List.append_cancel_left heq)
          exact ⟨rfl, rfl⟩
      | between hleft' hcopy' hsign' hright' =>
          rw [List.append_assoc] at heq
          obtain ⟨rfl, rfl⟩ := hcallee.unique hleft' heq
          exact absurd (TokenKind.opens_eq_none_of_between hsign')
            (hgroup.first_of_eq_append (List.append_cancel_left heq).symm).2
  | .between hleft hcopy hsign hright =>
      intro q entries' rest rest' h' heq
      rw [List.append_assoc] at heq
      cases h' with
      | before hcopy' hsign' hoperand' => exact absurd hsign' (hleft.not_before heq.symm _)
      | after hoperand' hcopy' hsign' =>
          rw [List.append_assoc] at heq
          obtain ⟨rfl, rfl⟩ := hleft.unique hoperand' heq
          obtain ⟨rfl, -⟩ := List.cons_eq_cons.mp (List.append_cancel_left heq)
          cases (TokenKind.after_eq_none_of_between hsign).symm.trans hsign'
      | applied hcallee' hgroup' =>
          rw [List.append_assoc] at heq
          obtain ⟨rfl, rfl⟩ := hleft.unique hcallee' heq
          exact absurd (TokenKind.opens_eq_none_of_between hsign)
            (hgroup'.first_of_eq_append (List.append_cancel_left heq)).2
      | between hleft' hcopy' hsign' hright' =>
          rw [List.append_assoc] at heq
          obtain ⟨rfl, rfl⟩ := hleft.unique hleft' heq
          obtain ⟨rfl, hbehind⟩ := List.cons_eq_cons.mp (List.append_cancel_left heq)
          cases hsign.symm.trans hsign'
          obtain ⟨rfl, rfl⟩ := hright.unique hright' hbehind
          exact ⟨rfl, rfl⟩

theorem IsGroup.unique
    {b : Bracket} {parts : List Phrase} {entries : List GroupedToken}
    (h : IsGroup b parts entries) :
    ∀ {b' : Bracket} {parts' : List Phrase} {entries' rest rest' : List GroupedToken},
      IsGroup b' parts' entries' → entries ++ rest = entries' ++ rest' →
        b = b' ∧ parts = parts' ∧ entries = entries' := by
  match h with
  | .mk hfirst hopening hparts hlast hclosing =>
      intro b' parts' entries' rest rest' h' heq
      obtain ⟨hfirst', hopening', hparts', hlast', hclosing'⟩ := h'
      simp only [List.cons_append, List.append_assoc, List.nil_append, List.cons.injEq] at heq
      obtain ⟨rfl, heq⟩ := heq
      have hopens := TokenKind.opens_eq_some_iff.mpr hopening
      cases hopens.symm.trans (TokenKind.opens_eq_some_iff.mpr hopening')
      obtain ⟨rfl, rfl⟩ := hparts.unique hparts' hclosing hclosing' heq
      obtain ⟨rfl, -⟩ := List.cons_eq_cons.mp (List.append_cancel_left heq)
      exact ⟨rfl, rfl, rfl⟩

/-- Parts end at the first closing bracket outside brackets. -/
theorem IsParts.unique
    {parts : List Phrase} {entries : List GroupedToken} (h : IsParts parts entries) :
    ∀ {parts' : List Phrase} {last last' : GroupedToken} {b b' : Bracket}
      {entries' rest rest' : List GroupedToken}, IsParts parts' entries' →
      last.token.kind = .punctuation b.closing → last'.token.kind = .punctuation b'.closing →
      entries ++ last :: rest = entries' ++ last' :: rest' →
        parts = parts' ∧ entries = entries' := by
  match h with
  | .nil =>
      intro parts' last last' b b' entries' rest rest' h' hlast hlast' heq
      cases h' with
      | nil => exact ⟨rfl, rfl⟩
      | cons hp' hlater' =>
          rw [List.append_assoc] at heq
          exact absurd hlast (hp'.not_closing heq _)
  | .cons hp hlater =>
      intro parts' last last' b b' entries' rest rest' h' hlast hlast' heq
      rw [List.append_assoc] at heq
      cases h' with
      | nil => exact absurd hlast' (hp.not_closing heq.symm _)
      | cons hp' hlater' =>
          rw [List.append_assoc] at heq
          obtain ⟨rfl, rfl⟩ := hp.unique hp' heq
          obtain ⟨rfl, rfl⟩ := hlater.unique hlater' hlast hlast' (List.append_cancel_left heq)
          exact ⟨rfl, rfl⟩

theorem IsLater.unique
    {parts : List Phrase} {entries : List GroupedToken} (h : IsLater parts entries) :
    ∀ {parts' : List Phrase} {last last' : GroupedToken} {b b' : Bracket}
      {entries' rest rest' : List GroupedToken}, IsLater parts' entries' →
      last.token.kind = .punctuation b.closing → last'.token.kind = .punctuation b'.closing →
      entries ++ last :: rest = entries' ++ last' :: rest' →
        parts = parts' ∧ entries = entries' := by
  match h with
  | .nil =>
      intro parts' last last' b b' entries' rest rest' h' hlast hlast' heq
      cases h' with
      | nil => exact ⟨rfl, rfl⟩
      | cons hcopy' hcomma' =>
          obtain ⟨rfl, -⟩ := List.cons_eq_cons.mp heq
          exact absurd (hlast.symm.trans hcomma') (by cases b <;> decide)
  | .cons hcopy hcomma hp hlater =>
      intro parts' last last' b b' entries' rest rest' h' hlast hlast' heq
      cases h' with
      | nil =>
          obtain ⟨rfl, -⟩ := List.cons_eq_cons.mp heq
          exact absurd (hlast'.symm.trans hcomma) (by cases b' <;> decide)
      | cons hcopy' hcomma' hp' hlater' =>
          simp only [List.cons_append, List.append_assoc, List.cons.injEq] at heq
          obtain ⟨rfl, heq⟩ := heq
          obtain ⟨rfl, rfl⟩ := hp.unique hp' heq
          obtain ⟨rfl, rfl⟩ := hlater.unique hlater' hlast hlast' (List.append_cancel_left heq)
          exact ⟨rfl, rfl⟩

end

/-! ## Inserted pairs -/

/-- Every inserted opening parenthesis stands before one application and the inserted closing one
behind it. -/
def Encloses (entries : List GroupedToken) : Prop :=
  ∀ index first, entries[index]? = some first → isInsertion .lparen first = true →
    ∃ p inner last, IsApplication p inner ∧ isInsertion .rparen last = true ∧
      inner ++ [last] <+: entries.drop (index + 1)

namespace Encloses

variable {front back entries : List GroupedToken} {e first last : GroupedToken}

theorem nil : Encloses [] := by
  intro index first hfirst
  simp at hfirst

theorem append
    (hfront : Encloses front) (hback : Encloses back) : Encloses (front ++ back) := by
  intro index first hfirst hinsertion
  by_cases hindex : index < front.length
  · rw [List.getElem?_append_left hindex] at hfirst
    obtain ⟨p, inner, last, hinner, hlast, hbehind⟩ := hfront index first hfirst hinsertion
    refine ⟨p, inner, last, hinner, hlast, ?_⟩
    rw [List.drop_append_of_le_length hindex]
    exact hbehind.trans (List.prefix_append _ _)
  · rw [List.getElem?_append_right (Nat.le_of_not_lt hindex)] at hfirst
    obtain ⟨p, inner, last, hinner, hlast, hbehind⟩ := hback _ first hfirst hinsertion
    refine ⟨p, inner, last, hinner, hlast, ?_⟩
    rw [List.drop_append, List.drop_of_length_le (by omega), List.nil_append,
      show index + 1 - front.length = index - front.length + 1 by omega]
    exact hbehind

/-- A token before the entries that is no inserted parenthesis. -/
theorem cons
    (he : isInsertion .lparen e ≠ true) (h : Encloses entries) : Encloses (e :: entries) := by
  intro index first hfirst hinsertion
  cases index with
  | zero =>
      cases Option.some.inj hfirst
      exact absurd hinsertion he
  | succ index => exact h index first hfirst hinsertion

theorem enclosed
    {p : Phrase} (hp : IsApplication p entries) (hlast : isInsertion .rparen last = true)
    (h : Encloses entries) : Encloses (first :: (entries ++ [last])) := by
  have hclosing : isInsertion .lparen last ≠ true := by
    intro hopening
    cases (kind_of_isInsertion hopening).symm.trans (kind_of_isInsertion hlast)
  intro index e he hinsertion
  cases index with
  | zero => exact ⟨p, entries, last, hp, hlast, List.prefix_rfl⟩
  | succ index => exact h.append (nil.cons hclosing) index e he hinsertion

end Encloses

mutual

theorem IsTerm.encloses
    {p : Phrase} {entries : List GroupedToken} (h : IsTerm p entries) : Encloses entries := by
  match h with
  | .leaf hcopy hleaf => exact .cons (not_isInsertion_of_copy hcopy _) .nil
  | .group hgroup => exact hgroup.encloses
  | .application hopening hinner hclosing => exact hinner.encloses.enclosed hinner hclosing

theorem IsApplication.encloses
    {p : Phrase} {entries : List GroupedToken} (h : IsApplication p entries) :
    Encloses entries := by
  match h with
  | .before hcopy hsign hoperand =>
      exact hoperand.encloses.cons (not_isInsertion_of_copy hcopy _)
  | .after hoperand hcopy hsign =>
      exact hoperand.encloses.append (.cons (not_isInsertion_of_copy hcopy _) .nil)
  | .applied hcallee hgroup => exact hcallee.encloses.append hgroup.encloses
  | .between hleft hcopy hsign hright =>
      exact hleft.encloses.append (hright.encloses.cons (not_isInsertion_of_copy hcopy _))

theorem IsGroup.encloses
    {b : Bracket} {parts : List Phrase} {entries : List GroupedToken}
    (h : IsGroup b parts entries) : Encloses entries := by
  match h with
  | .mk hfirst hopening hparts hlast hclosing =>
      exact .cons (not_isInsertion_of_copy hfirst _)
        (hparts.encloses.append (.cons (not_isInsertion_of_copy hlast _) .nil))

theorem IsParts.encloses
    {parts : List Phrase} {entries : List GroupedToken} (h : IsParts parts entries) :
    Encloses entries := by
  match h with
  | .nil => exact .nil
  | .cons hp hlater => exact hp.encloses.append hlater.encloses

theorem IsLater.encloses
    {parts : List Phrase} {entries : List GroupedToken} (h : IsLater parts entries) :
    Encloses entries := by
  match h with
  | .nil => exact .nil
  | .cons hcopy hcomma hp hlater =>
      exact .cons (not_isInsertion_of_copy hcopy _) (hp.encloses.append hlater.encloses)

end

/-! ## Grouped phrases are terms -/

section Grouped

variable {tokens : Array Token}

theorem exists_copy_of_kindAt
    {index : Nat} {k : TokenKind} (hk : kindAt tokens index = some k) :
    ∃ e : GroupedToken, copy tokens index = [e] ∧ e.source.isSome = true ∧ e.token.kind = k := by
  obtain ⟨t, ht, hkind⟩ := kindAt_eq_some_iff.mp hk
  exact ⟨⟨t, some index⟩, copy_of_getElem? ht, rfl, hkind⟩

theorem IsTerm.of_enclose
    {p : Phrase} {entries : List GroupedToken} {anchor : Nat} (h : IsApplication p entries)
    (hentries : entries ≠ []) (hanchor : anchor < tokens.size) :
    IsTerm p (enclose tokens anchor entries) := by
  obtain ⟨first, rest, rfl⟩ := List.exists_cons_of_ne_nil hentries
  have hlast : tokens[anchor]? = some tokens[anchor] := Array.getElem?_eq_getElem hanchor
  simp only [enclose, List.head?_cons, hlast]
  exact .application rfl h rfl

theorem isLater_groupedLater
    {parts : List Phrase}
    (hparts : ∀ p ∈ parts, ∀ start, p.Spells tokens start → IsTerm p (p.grouped tokens start))
    {start : Nat} (h : Phrase.SpellsLater tokens parts start) :
    IsLater parts (Phrase.groupedLater tokens parts start) := by
  induction parts generalizing start with
  | nil => exact .nil
  | cons p ps ih =>
      obtain ⟨hcomma, hp, hps⟩ := h
      obtain ⟨e, he, hcopy, hkind⟩ := exists_copy_of_kindAt hcomma
      rw [Phrase.groupedLater, he, List.singleton_append]
      exact .cons hcopy hkind (hparts p List.mem_cons_self _ hp)
        (ih (fun q hq => hparts q (List.mem_cons_of_mem p hq)) hps)

theorem isGroup_grouped
    {b : Bracket} {parts : List Phrase}
    (hparts : ∀ p ∈ parts, ∀ start, p.Spells tokens start → IsTerm p (p.grouped tokens start))
    {start : Nat} (h : (Phrase.group b parts).Spells tokens start) :
    IsGroup b parts ((Phrase.group b parts).grouped tokens start) := by
  obtain ⟨hopening, hinner, hclosing⟩ := h
  obtain ⟨first, hfirst, hfirstCopy, hfirstKind⟩ := exists_copy_of_kindAt hopening
  obtain ⟨last, hlast, hlastCopy, hlastKind⟩ := exists_copy_of_kindAt hclosing
  rw [Phrase.grouped, hfirst, hlast, List.append_assoc]
  refine .mk hfirstCopy hfirstKind ?_ hlastCopy hlastKind
  cases parts with
  | nil => exact .nil
  | cons p ps =>
      exact .cons (hparts p List.mem_cons_self _ hinner.1)
        (isLater_groupedLater (fun q hq => hparts q (List.mem_cons_of_mem p hq)) hinner.2)

/-- A grouped phrase is a term. -/
theorem isTerm_grouped
    {p : Phrase} {start : Nat} (h : p.Spells tokens start) :
    IsTerm p (p.grouped tokens start) := by
  induction p generalizing start with
  | leaf kind =>
      obtain ⟨k, hk, hleaf⟩ := Phrase.exists_of_spells_leaf h
      obtain ⟨e, he, hcopy, rfl⟩ := exists_copy_of_kindAt hk
      rw [Phrase.grouped, he]
      exact .leaf hcopy hleaf
  | group b parts ih => exact .group (isGroup_grouped (fun p hp start hs => ih p hp hs) h)
  | before op operand ih =>
      obtain ⟨k, hk, hbefore⟩ := Phrase.exists_of_spells_before h
      obtain ⟨e, he, hcopy, rfl⟩ := exists_copy_of_kindAt hk
      rw [Phrase.grouped, he]
      exact .of_enclose (.before hcopy hbefore (ih h.2)) (by simp) (lt_size_of_kindAt hk)
  | after operand op ih =>
      obtain ⟨k, hk, hafter⟩ := Phrase.exists_of_spells_after h
      obtain ⟨e, he, hcopy, rfl⟩ := exists_copy_of_kindAt hk
      rw [Phrase.grouped, he]
      exact .of_enclose (.after (ih h.1) hcopy hafter) (by simp) (lt_size_of_kindAt hk)
  | applied callee b parts ihCallee ihParts =>
      obtain ⟨hcallee, hgroup⟩ := Phrase.spells_applied_iff.mp h
      have happlied := IsApplication.applied (ihCallee hcallee)
        (isGroup_grouped (fun p hp start hs => ihParts p hp hs) hgroup)
      obtain ⟨first, rest, hfirst, -⟩ := (ihCallee hcallee).exists_first
      rw [Phrase.grouped_applied]
      refine .of_enclose happlied (by simp [hfirst]) ?_
      have hsize := lt_size_of_kindAt hgroup.2.2
      simp only [Phrase.width]
      omega
  | between left op right ihLeft ihRight =>
      obtain ⟨k, hk, hbetween⟩ := Phrase.exists_of_spells_between h
      obtain ⟨e, he, hcopy, rfl⟩ := exists_copy_of_kindAt hk
      rw [Phrase.grouped, he, List.append_assoc]
      exact .of_enclose (.between (ihLeft h.1) hcopy hbetween (ihRight h.2.2)) (by simp)
        (lt_size_of_kindAt hk)

end Grouped

end ExprFront.Grouping

namespace ExprFront

open Grouping

/-- The entries are a term, in one way only, and each inserted pair encloses one application. -/
structure Grouped.FullyGrouped (g : Grouped) : Prop where
  term : ∃! p, IsTerm p g.entries.toList
  enclosed : Encloses g.entries.toList

/-- What is grouped is fully grouped: reading it back takes no decision about priorities. -/
theorem fullyGrouped_of_groupTokens
    (tokens : Array Token) (range : TokenRange) (limit : Nat) (g : Grouped)
    (hgrouped : groupTokens tokens range limit = .ok g) : g.FullyGrouped := by
  obtain ⟨p, hcovers, -, hentries⟩ := exists_covers_of_groupTokens hgrouped
  have hterm := isTerm_grouped hcovers.spells
  have hlist : g.entries.toList = p.grouped tokens range.start := by rw [hentries]
  rw [← hlist] at hterm
  refine ⟨⟨p, hterm, fun q hq => ?_⟩, hterm.encloses⟩
  have hsame : g.entries.toList ++ [] = g.entries.toList ++ [] := rfl
  exact (hq.unique hterm hsame).1

/-- The tokens of `-a[b]*c`. -/
def sampleProduct : Array Token :=
  #[⟨.operator .minus, "-", ⟨0, 1⟩, 1, 1, 1⟩, ⟨.identifier, "a", ⟨1, 2⟩, 1, 2, 1⟩,
    ⟨.punctuation .lbracket, "[", ⟨2, 3⟩, 1, 3, 1⟩, ⟨.identifier, "b", ⟨3, 4⟩, 1, 4, 1⟩,
    ⟨.punctuation .rbracket, "]", ⟨4, 5⟩, 1, 5, 1⟩, ⟨.operator .star, "*", ⟨5, 6⟩, 1, 6, 1⟩,
    ⟨.identifier, "c", ⟨6, 7⟩, 1, 7, 1⟩]

/-- The group is applied first, then the sign, then the product. -/
theorem fullyGrouped_of_groupTokens_sample :
    ∃ g, groupTokens sampleProduct ⟨0, 7⟩ 10 = .ok g ∧ g.FullyGrouped ∧
      g.text = "((-(a[b]))*c)" := by
  have htext : (groupTokens sampleProduct ⟨0, 7⟩ 10).toOption.map Grouped.text =
      some "((-(a[b]))*c)" := by decide +kernel
  cases hg : groupTokens sampleProduct ⟨0, 7⟩ 10 with
  | error e =>
      rw [hg] at htext
      cases htext
  | ok g =>
      rw [hg] at htext
      exact ⟨g, rfl, fullyGrouped_of_groupTokens sampleProduct ⟨0, 7⟩ 10 g hg,
        Option.some.inj htext⟩

end ExprFront
