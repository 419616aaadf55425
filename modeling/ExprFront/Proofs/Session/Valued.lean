import ExprFront.Proofs.Decimal
import ExprFront.Proofs.Session.Decoded

/-!
# Values of integer leaves

The literal of an integer leaf is a run of digits and the letter of its kind. Its
value is the number that the digits denote, however many they are, as long as the
number is within the bound of the kind; beyond it, the error points at the token of
the leaf. Neither grouping nor collapsing moves a leaf away from its token, so that
this holds of every tree that a session reads.
-/

namespace ExprFront

open Grouping Lexeme

/-- What follows the digits of an integer of the kind; nothing for kinds that hold none. -/
def NodeKind.integerSuffix? : NodeKind → Option (List Char)
  | number => some []
  | unsigned => some ['u']
  | octet => some ['o']
  | bit => some ['b']
  | _ => none

theorem NodeKind.of_integerSuffix?
    {kind : NodeKind} {suffix : List Char} (h : kind.integerSuffix? = some suffix) :
    kind.isLeaf = true ∧ ∀ c ∈ suffix, c.isAlpha = true := by
  unfold integerSuffix? at h
  split at h <;> cases h <;> exact ⟨rfl, by simp⟩

namespace LiteralValue

variable {t : Token} {kind : NodeKind} {digits suffix : List Char}

/-! ## Exact values -/

/-- The answer is the number that the digits denote, or beyond the limit the error that the token
is out of range. -/
inductive ExactUpTo (limit : Nat) (target : String) (wrap : Nat → LiteralValue) (t : Token)
    (digits : List Char) : Except LiteralError LiteralValue → Prop
  | within (h : Decimal.value digits ≤ limit) :
      ExactUpTo limit target wrap t digits (.ok (wrap (Decimal.value digits)))
  | beyond (h : limit < Decimal.value digits) :
      ExactUpTo limit target wrap t digits
        (.error (.outOfRange target ⟨t.literal, t.line, t.column, t.span⟩))

/-- The answer is the bit that is written as one digit, or the error that the token is no bit. -/
inductive ExactBit (t : Token) (digits : List Char) : Except LiteralError LiteralValue → Prop
  | zero (h : digits = ['0']) : ExactBit t digits (.ok (.bit false))
  | one (h : digits = ['1']) : ExactBit t digits (.ok (.bit true))
  | invalid (hzero : digits ≠ ['0']) (hone : digits ≠ ['1']) :
      ExactBit t digits (.error (.invalidBit ⟨t.literal, t.line, t.column, t.span⟩))

/-- The answer for an integer leaf of the kind with the digits. -/
def Exact (t : Token) (digits : List Char) (answer : Except LiteralError LiteralValue) :
    NodeKind → Prop
  | .number => ExactUpTo (2 ^ 63 - 1) "int" (fun v => .int v) t digits answer
  | .unsigned => ExactUpTo (2 ^ 64 - 1) "uint" .unsigned t digits answer
  | .octet => ExactUpTo 255 "octet" .octet t digits answer
  | .bit => ExactBit t digits answer
  | _ => False

theorem exactUpTo_orOutOfRange
    (limit : Nat) (target : String) (wrap : Nat → LiteralValue) (t : Token)
    (digits : List Char) :
    ExactUpTo limit target wrap t digits (orOutOfRange t target
      (if Decimal.value digits ≤ limit then some (wrap (Decimal.value digits)) else none)) := by
  split
  · rename_i h
    exact .within h
  · rename_i h
    exact .beyond (Nat.lt_of_not_le h)

theorem exactBit_readBit
    (t : Token) (digits : List Char) : ExactBit t digits (readBit t digits) := by
  unfold readBit
  split
  · rename_i hzero
    exact .zero hzero
  · rename_i hzero
    split
    · rename_i hone
      exact .one hone
    · rename_i hone
      exact .invalid hzero hone

/-- No answer for an integer leaf says that the leaf is no literal. -/
theorem Exact.ne_notALiteral
    {answer : Except LiteralError LiteralValue} (h : Exact t digits answer kind)
    (other : NodeKind) : answer ≠ .error (.notALiteral other) := by
  rintro rfl
  unfold Exact at h
  split at h <;> cases h

/-! ## Tokens of integers -/

theorem isAlpha_eq_false
    {c : Char} (h : c.isDigit = true) : c.isAlpha = false := by
  rw [Bool.eq_false_iff]
  intro halpha
  have hletter := toNat_of_isNameStart (c := c) (by simp [isNameStart, halpha])
  have hdigit := toNat_of_isDigit h
  omega

/-- A letter is no digit, so that the digits of a literal end where its suffix starts. -/
theorem withoutSuffix_append
    (hdigits : IsDigits digits) (hsuffix : ∀ c ∈ suffix, c.isAlpha = true) :
    withoutSuffix (digits ++ suffix) = digits := by
  have hstop : digits.reverse.dropWhile Char.isAlpha = digits.reverse := by
    rw [List.dropWhile_eq_self_iff]
    intro hpos
    have hmem := List.mem_reverse.mp (List.getElem_mem hpos)
    exact ne_true_of_eq_false (isAlpha_eq_false (hdigits.2 _ hmem))
  rw [withoutSuffix, List.reverse_append,
    List.dropWhile_append_of_pos fun c hc => hsuffix c (List.mem_reverse.mp hc), hstop,
    List.reverse_reverse]

/-- The token of an integer leaf is spelled as digits and the suffix of the kind. -/
theorem exists_digits_of_isLexed
    (hlexed : t.IsLexed) (hkind : NodeKind.ofToken? t.kind = some kind)
    (hsuffix : kind.integerSuffix? = some suffix) :
    ∃ digits, t.literal.toList = digits ++ suffix ∧ IsDigits digits := by
  obtain ⟨rest, hpiece⟩ := hlexed
  generalize t.kind = k at hpiece hkind
  generalize t.literal.toList = literal at hpiece
  cases hpiece with
  | number hdigits =>
      cases hkind
      cases hsuffix
      exact ⟨literal, (List.append_nil literal).symm, hdigits⟩
  | @suffixed digits _ letter _ hdigits hletter =>
      refine ⟨digits, congrArg (digits ++ ·) ?_, hdigits⟩
      simp only [List.mem_cons, Prod.mk.injEq, List.not_mem_nil, or_false] at hletter
      rcases hletter with ⟨rfl, rfl⟩ | ⟨rfl, rfl⟩ | ⟨rfl, rfl⟩ <;>
        · cases hkind
          cases hsuffix
          rfl
  | string | real | identifier | specialObject =>
      cases hkind
      cases hsuffix
  | _ => cases hkind

/-- The value of such a token is exact. -/
theorem exact_ofToken
    (hliteral : t.literal.toList = digits ++ suffix) (hdigits : IsDigits digits)
    (hsuffix : kind.integerSuffix? = some suffix) : Exact t digits (ofToken kind t) kind := by
  have hrun : withoutSuffix t.literal.toList = digits := by
    rw [hliteral, withoutSuffix_append hdigits (NodeKind.of_integerSuffix? hsuffix).2]
  have hbounded (limit : Nat) (target : String) (wrap : Nat → LiteralValue) :
      ExactUpTo limit target wrap t digits (orOutOfRange t target
        ((Decimal.readUnsigned? limit digits).map wrap)) := by
    rw [Decimal.readUnsigned?_eq hdigits, apply_ite (Option.map wrap)]
    exact exactUpTo_orOutOfRange ..
  simp only [ofToken, hrun]
  unfold NodeKind.integerSuffix? at hsuffix
  split at hsuffix
  · show ExactUpTo _ _ _ _ _ (orOutOfRange t "int" ((Decimal.readInt? digits).map int))
    rw [Decimal.readInt?_eq hdigits, apply_ite (Option.map int)]
    exact exactUpTo_orOutOfRange Decimal.maxInt "int" (fun v => .int v) t digits
  · exact hbounded Decimal.maxUnsigned "uint" unsigned
  · exact hbounded Decimal.maxOctet "octet" octet
  · exact exactBit_readBit t digits
  · cases hsuffix

end LiteralValue

/-! ## Leaves of trees -/

namespace Tree

variable {tokens : Array Token} {t u : Tree}

theorem Lexed.isSubtree
    (h : t.Lexed tokens) (hu : u.IsSubtree t) : u.Lexed tokens := by
  induction hu with
  | refl => exact h
  | child hmem _ ih =>
      cases h with
      | leaf => cases hmem
      | node _ hts => exact ih (hts _ hmem)

/-- A tree of the kind of leaves over the tokens of a text is the leaf of a token. -/
theorem Lexed.exists_token
    (h : t.Lexed tokens) (hleaf : t.kind.isLeaf = true) :
    ∃ token, tokens[t.range.start]? = some token ∧ token.IsLexed ∧
      NodeKind.ofToken? token.kind = some t.kind ∧ t.range.stop = t.range.start + 1 := by
  cases h with
  | leaf htoken hlexed hkind => exact ⟨_, htoken, hlexed, hkind, rfl⟩
  | node hkind _ =>
      rw [Tree.kind, hkind] at hleaf
      cases hleaf

end Tree

namespace Session

variable {s after : Session} {root id : NodeId}

/-- The node is the root of a tree that the session reads: an expression, a program or the longest
expression at the start of a range. -/
inductive Reads (s : Session) (root : NodeId) (after : Session) : Prop
  | built (h : s.Builds root after)
  | longest {range : TokenRange} {next : Nat} (h : s.longest range = (.ok (root, next), after))

/-- Over the tokens of a text, what is read has tokens as leaves. -/
theorem Reads.exists_lexed
    (htokens : AllLexed s.tokens) (h : s.Reads root after) :
    ∃ t, after.arena.tree? root = some t ∧ t.Lexed s.tokens := by
  cases h with
  | built h => exact h.exists_lexed htokens
  | longest h =>
      obtain ⟨p, q, hfound, -, rfl, hgains⟩ := exists_found_and_gains_of_longest h
      have hq := List.mem_singleton_self q
      refine ⟨q.tree, (hgains.bears q hq).tree?_eq (Plot.nodup_ids_of_mem hgains.nodup hq), ?_⟩
      rw [hfound.tree_eq]
      exact Phrase.lexed_tree htokens hfound.spells

/-- The value of every integer leaf below a root that was read is exact: the leaf is one token,
its literal is a run of digits and the suffix of the kind, and the answer is the number that the
digits denote up to the bound of the kind. It is never that the leaf is no literal. -/
theorem exact_ofNode_of_reaches
    {source : String} {n : Node} {suffix : List Char} (hlex : lex source = .ok s.tokens)
    (hread : s.Reads root after) (hreaches : after.arena.Reaches root id)
    (hnode : after.arena.node? id = some n) (hkind : n.kind.integerSuffix? = some suffix) :
    ∃ t digits, s.tokens[n.range.start]? = some t ∧ n.range.stop = n.range.start + 1 ∧
      t.literal.toList = digits ++ suffix ∧ IsDigits digits ∧
      LiteralValue.Exact t digits (LiteralValue.ofNode s.tokens n.kind n.range) n.kind ∧
      ∀ other, LiteralValue.ofNode s.tokens n.kind n.range ≠ .error (.notALiteral other) := by
  obtain ⟨t, htree, ht⟩ := hread.exists_lexed fun _ => isLexed_of_lex hlex
  obtain ⟨u, hu, hbelow⟩ := hreaches.exists_isSubtree htree
  obtain ⟨m, hm, hkindEq, hrangeEq, -⟩ := Arena.exists_node_of_tree? hbelow
  obtain rfl : n = m := Option.some.inj (hnode.symm.trans hm)
  have hleaf := (NodeKind.of_integerSuffix? hkind).1
  obtain ⟨token, htoken, hlexed, hofToken, hstop⟩ :=
    (ht.isSubtree hu).exists_token (hkindEq ▸ hleaf)
  rw [← hrangeEq] at htoken hstop
  rw [← hkindEq] at hofToken
  obtain ⟨digits, hliteral, hdigits⟩ :=
    LiteralValue.exists_digits_of_isLexed hlexed hofToken hkind
  have hexact := LiteralValue.exact_ofToken hliteral hdigits hkind
  have hvalue : LiteralValue.ofNode s.tokens n.kind n.range =
      LiteralValue.ofToken n.kind token := by
    rw [LiteralValue.ofNode, htoken]
    exact if_pos hleaf
  rw [hvalue]
  exact ⟨token, digits, htoken, hstop, hliteral, hdigits, hexact, hexact.ne_notALiteral⟩

/-- The tokens of an expression with integers of each kind, two of them out of range. -/
def sampleIntegers : Session :=
  start ((lex "007u + f(256o, 2b) - 9223372036854775808").toOption.getD #[]) .standard

/-- The arena after the expression. The node of the statement, which comes last, has taken the place
of the root of the expression. -/
def sampleIntegersArena : Arena :=
  ⟨#[⟨.operation .subtraction, ⟨0, 10⟩, [], none⟩,
    ⟨.operation .addition, ⟨0, 8⟩, [3, 4], some 9⟩, ⟨.number, ⟨9, 10⟩, [], some 9⟩,
    ⟨.unsigned, ⟨0, 1⟩, [], some 1⟩, ⟨.operation .functionCall, ⟨2, 8⟩, [5, 6], some 1⟩,
    ⟨.identifier, ⟨2, 3⟩, [], some 4⟩, ⟨.arguments, ⟨3, 8⟩, [7, 8], some 4⟩,
    ⟨.octet, ⟨4, 5⟩, [], some 6⟩, ⟨.bit, ⟨6, 7⟩, [], some 6⟩,
    ⟨.operation .subtraction, ⟨0, 10⟩, [1, 2], none⟩]⟩

/-- The octet in the call is below the root. -/
theorem exact_ofNode_of_reaches_sample :
    ∃ after, sampleIntegers.Reads 9 after ∧ after.arena.Reaches 9 7 ∧
      after.arena.node? 7 = some ⟨.octet, ⟨4, 5⟩, [], some 6⟩ ∧
      ∃ t digits, sampleIntegers.tokens[4]? = some t ∧ 5 = 4 + 1 ∧
        t.literal.toList = digits ++ ['o'] ∧ IsDigits digits ∧
        LiteralValue.Exact t digits
          (LiteralValue.ofNode sampleIntegers.tokens .octet ⟨4, 5⟩) .octet ∧
        ∀ other, LiteralValue.ofNode sampleIntegers.tokens .octet ⟨4, 5⟩ ≠
          .error (.notALiteral other) := by
  have hlex : lex "007u + f(256o, 2b) - 9223372036854775808" = .ok sampleIntegers.tokens := by
    decide +kernel
  have hparts : (sampleIntegers.expression ⟨0, 10⟩).1.toOption = some 9 ∧
      (sampleIntegers.expression ⟨0, 10⟩).2.arena = sampleIntegersArena := by
    decide +kernel
  obtain ⟨root, after, h⟩ := exists_eq_of_isOk
    (show (sampleIntegers.expression ⟨0, 10⟩).1.isOk = true by decide +kernel)
  rw [h] at hparts
  obtain rfl : root = 9 := Option.some.inj hparts.1
  have hreaches : after.arena.Reaches 9 7 := by
    rw [show after.arena = sampleIntegersArena from hparts.2]
    have haddition : 1 ∈ sampleIntegersArena.children 9 := by decide
    have hcall : 4 ∈ sampleIntegersArena.children 1 := by decide
    have harguments : 6 ∈ sampleIntegersArena.children 4 := by decide
    have hoctet : 7 ∈ sampleIntegersArena.children 6 := by decide
    exact .head haddition (.head hcall (.head harguments (.single hoctet)))
  have hnode : after.arena.node? 7 = some ⟨.octet, ⟨4, 5⟩, [], some 6⟩ := by
    rw [show after.arena = sampleIntegersArena from hparts.2]
    rfl
  have hread : sampleIntegers.Reads 9 after := .built (.expression h)
  exact ⟨after, hread, hreaches, hnode,
    exact_ofNode_of_reaches hlex hread hreaches hnode rfl⟩

end Session

end ExprFront
