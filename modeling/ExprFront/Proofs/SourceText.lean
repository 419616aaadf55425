import ExprFront.Proofs.Phrase.Subtrees
import ExprFront.Proofs.Program
import ExprFront.Proofs.Reread
import ExprFront.Proofs.Session.Excerpt
import ExprFront.Proofs.Token.Sliced

/-!
# Nodes read again from their source

The source of a node is the slice of the text from its first token to its last.
The slice has the tokens of the node, and these are a phrase on their own, so
they are read alone as they were read in their place: the slice gives a tree that
is written like the node. A limit that exceeds the number of tokens holds back
none of it.
-/

namespace ExprFront

/-! ## Phrases taken out of their tokens -/

namespace Phrase

variable {tokens : Array Token} {range : TokenRange} {p : Phrase}

/-- If the limit exceeds the number of tokens, a phrase is read in its range. -/
theorem content_of_length_lt
    (hcovers : p.Covers tokens range) (hordered : p.Ordered) (hsingle : p.Single) {config : Config}
    (hlimit : range.length < config.limit) :
    (Session.start tokens config).content range = .ok (p.tree range.start).bare := by
  have hgroup := hcovers.groupTokens_eq hordered hsingle hlimit
  apply Session.content_of_accepted (accepted_of_length_lt hcovers hordered hsingle hlimit)
  intro _ most spot hdeep
  cases hgroup.symm.trans hdeep

theorem Covers.within
    (h : p.Covers tokens range) : range.start < range.stop ∧ range.Within tokens := by
  have hpos := p.width_pos
  have hsize := h.spells.le_size
  have hstop := h.stop_eq
  exact ⟨by omega, by omega, by omega⟩

/-- The tokens of a phrase are a phrase where they stand alone, and it is written alike. -/
theorem Covers.exists_extract
    (h : p.Covers tokens range) (hordered : p.Ordered) (hsingle : p.Single) :
    ∃ q : Phrase, q.Covers (tokens.extract range.start range.stop) ⟨0, range.length⟩ ∧
      q.Ordered ∧ q.Single ∧ (q.tree 0).plainText (tokens.extract range.start range.stop) =
        (p.tree range.start).plainText tokens := by
  obtain ⟨-, hrange⟩ := h.within
  let s := Session.start tokens (.plain (range.length + 1))
  have hcontent : s.content range = .ok (p.tree range.start).bare :=
    content_of_length_lt h hordered hsingle (Nat.lt_succ_self range.length)
  rcases s.excerpt_cases hrange with ⟨t, hsmall, hlarge⟩ | ⟨e, e', -, hlarge, -⟩
  · obtain ⟨q, hq, rfl⟩ := Session.exists_accepted_of_content hsmall
    refine ⟨q, hq.covers, hq.ordered, hq.single, ?_⟩
    have hmoved : (p.tree range.start).simplified = (q.tree 0).simplified.moved range.start := by
      have hbare : (p.tree range.start).bare = (q.tree 0).bare.moved range.start :=
        Except.ok.inj (hcontent.symm.trans hlarge)
      rw [← Tree.simplified_bare, hbare, Tree.simplified_moved, Tree.simplified_bare]
    obtain ⟨hwell, hinside⟩ :=
      (wellFormed_tree hq.covers.spells hq.single).simplified_and_contains
    rw [range_tree, TokenRange.contains_iff] at hinside
    have hstop : (q.tree 0).simplified.range.stop ≤ range.length :=
      Nat.le_trans hinside.2 (Nat.le_of_eq hq.covers.stop_eq)
    rw [Tree.plainText, Tree.plainText, hmoved]
    refine (Tree.sexpr_moved_eq (fun i hi => ?_) hwell hstop).symm
    rw [(Window.extract hrange).getElem?_eq i hi]
  · cases hlarge.symm.trans hcontent

end Phrase

/-- A phrase is read from its source, and the tree is written alike. -/
theorem Tree.IsPhrase.exists_ofSource
    {source : String} {tokens : Array Token} {config : Config} {t : Tree}
    (h : t.IsPhrase tokens) (hlex : lex source = .ok tokens) (hsimplify : config.simplify = true)
    (hlimit : tokens.size ≤ config.limit) (hstop : t.range.stop < tokens.size) :
    ∃ again r, ExpressionResult.ofSource (sourceText tokens source.toList t.range) config =
        .ok (again, r) ∧ r.sexpr again = t.sexpr tokens := by
  obtain ⟨p, hcovers, hordered, hsingle, htree⟩ := h
  obtain ⟨hnonempty, hrange⟩ := hcovers.within
  obtain ⟨q, hq, hqOrdered, hqSingle, htext⟩ := hcovers.exists_extract hordered hsingle
  obtain ⟨again, hagain, hpieces⟩ := exists_lex_sourceText hlex hnonempty hstop
  have hlength : (tokens.extract t.range.start t.range.stop).size = t.range.length := by
    rw [Array.size_extract, Nat.min_eq_left hrange.stop_le]
    rfl
  obtain ⟨-, hbody⟩ := bodyRange_of_map_piece hpieces
  rw [List.length_map, Array.length_toList, hlength] at hbody
  -- The tokens of the source differ from those of the range in their places only.
  obtain ⟨hcovers', hsame⟩ := hq.alike hqSingle (.of_map_piece hpieces) (Nat.le_of_eq hlength.symm)
  rw [← hbody] at hcovers'
  have hlimit' : (bodyRange again).length < config.limit := by
    rw [hbody]
    simp only [TokenRange.length]
    omega
  obtain ⟨r, hr, hroot⟩ := ExpressionResult.exists_of_content
    (Phrase.content_of_length_lt hcovers' hqOrdered hqSingle hlimit')
  refine ⟨again, r, ?_, ?_⟩
  · simp only [ExpressionResult.ofSource, lexSource, hagain, bind, Except.bind, hr, pure,
      Except.pure]
  · rw [ExpressionResult.sexpr, Arena.sexpr_eq_of_tree? _ _ _ _ hroot, Config.finish,
      if_pos hsimplify, ← plainText, plainText_wrapper rfl, plainText_bare, hbody, hsame, htext,
      plainText, htree]

/-! ## Trees that were read -/

/-- What was read in a range is phrased once it is collapsed. -/
theorem Session.phrased_finish
    {s : Session} {range : TokenRange} {t : Tree} (h : s.content range = .ok t)
    (hsimplify : s.config.simplify = true) :
    (s.config.finish (.node .expression range [t])).Phrased s.tokens := by
  obtain ⟨p, hp, rfl⟩ := exists_accepted_of_content h
  rw [Config.finish, if_pos hsimplify, Tree.simplified_node, List.map_singleton,
    Tree.collapsed_wrapper rfl, Tree.simplified_bare]
  exact Phrase.phrased_simplified hp.covers.spells hp.ordered hp.single

/-- Unless it is a bracket group after an operand, the node is read again from its source, and the
expression is written like the node. -/
def Arena.Rereads (a : Arena) (source : String) (tokens : Array Token) (config : Config)
    (id : NodeId) : Prop :=
  ∃ n, a.node? id = some n ∧ (n.kind.isArguments = true ∨
    ∃ again r, ExpressionResult.ofSource (Tree.sourceText tokens source.toList n.range) config =
        .ok (again, r) ∧ r.sexpr again = a.sexpr tokens id)

/-- All nodes of a tree that was read before the end mark are read again. -/
theorem Arena.rereads_of_reaches
    {a : Arena} {source : String} {tokens : Array Token} {config : Config} {range : TokenRange}
    {t : Tree} {root id : NodeId} (hlex : lex source = .ok tokens)
    (hsimplify : config.simplify = true) (hlimit : tokens.size ≤ config.limit)
    (hcontent : (Session.start tokens config).content range = .ok t)
    (hstop : range.stop < tokens.size)
    (hroot : a.tree? root = some (config.finish (.node .expression range [t])))
    (hid : a.Reaches root id) : a.Rereads source tokens config id := by
  obtain ⟨u, hu, htree⟩ := hid.exists_isSubtree hroot
  obtain ⟨n, hnode, hkind, hrange, -⟩ := exists_node_of_tree? htree
  obtain ⟨hwell, hinside⟩ := Session.wellFormed_finish hcontent
  obtain ⟨-, hbelow⟩ := hwell.isSubtree hu
  have hends := (TokenRange.contains_iff _ _).mp (TokenRange.contains_trans hinside hbelow)
  refine ⟨n, hnode, ?_⟩
  rw [hkind, hrange, Arena.sexpr_eq_of_tree? _ _ _ _ htree]
  exact (Session.phrased_finish hcontent hsimplify u hu).imp_right fun hphrase =>
    hphrase.exists_ofSource hlex hsimplify hlimit (Nat.lt_of_le_of_lt hends.2 hstop)

/-- The body of a lexed text ends before the end mark. -/
theorem bodyRange_stop_lt_of_lex
    {source : String} {tokens : Array Token} (h : lex source = .ok tokens) :
    (bodyRange tokens).stop < tokens.size := by
  obtain ⟨pieces, -, rfl⟩ := lex_eq_ok_iff.mp h
  obtain ⟨hsize, hbody⟩ := bodyRange_of_map_piece (map_piece_withoutTrivia .origin pieces)
  rw [hbody, hsize]
  exact Nat.lt_succ_self _

/-- Every node of an expression or a program, apart from the node of the program and the bracket
groups after operands, is read again from its source as an expression that is written like the
node. -/
theorem rereads_of_ofSource
    (source : String) (tokens : Array Token) (config : Config) (hlex : lex source = .ok tokens)
    (hsimplify : config.simplify = true) (hlimit : tokens.size ≤ config.limit) :
    (∀ r, ExpressionResult.ofSource source config = .ok (tokens, r) →
      ∀ id, r.arena.Reaches r.root id → r.arena.Rereads source tokens config id) ∧
    ∀ program, ProgramResult.ofTokens tokens config = .ok program →
      ∀ id, program.arena.Reaches program.root id → id ≠ program.root →
        program.arena.Rereads source tokens config id := by
  constructor
  · intro r hr id hid
    have hread : ExpressionResult.ofTokens tokens (bodyRange tokens) config = .ok r := by
      simp only [ExpressionResult.ofSource, lexSource, hlex, bind, Except.bind] at hr
      cases hfound : ExpressionResult.ofTokens tokens (bodyRange tokens) config with
      | error e =>
          rw [hfound] at hr
          cases hr
      | ok found =>
          rw [hfound] at hr
          cases hr
          rfl
    obtain ⟨t, hcontent, hroot⟩ := ExpressionResult.exists_content_of_ofTokens hread
    exact Arena.rereads_of_reaches hlex hsimplify hlimit hcontent (bodyRange_stop_lt_of_lex hlex)
      hroot hid
  · intro program hprogram id hid hne
    -- A node below that of the program lies in the tree of a statement.
    obtain rfl | ⟨child, hchild, hbelow⟩ := Relation.ReflTransGen.cases_head hid
    · exact absurd rfl hne
    · obtain ⟨hsplit, -⟩ := exists_drafts_of_ofTokens hprogram
      obtain ⟨node, hnode, -, htrees⟩ := forall₂_trees_of_ofTokens hprogram
      rw [Arena.children, hnode] at hchild
      obtain ⟨statement, hvalue, t, hcontent, hroot⟩ := exists_mem_of_forall₂ htrees.flip hchild
      have hwithin := Statement.within_of_split hsplit statement (List.mem_of_mem_filter hvalue)
      have hstop : statement.range.stop < tokens.size := by
        have hlength := hwithin.length_ge
        have hsize := hwithin.size_ge
        rw [hwithin.range_eq]
        dsimp only
        omega
      exact Arena.rereads_of_reaches hlex hsimplify hlimit hcontent hstop hroot hbelow

/-- The tokens of `/*é*/ -f(a /*+*/ - b)`. -/
def Arena.sampleTokens : Array Token :=
  #[⟨.operator .minus, "-", ⟨7, 8⟩, 1, 7, 1⟩, ⟨.identifier, "f", ⟨8, 9⟩, 1, 8, 1⟩,
    ⟨.punctuation .lparen, "(", ⟨9, 10⟩, 1, 9, 1⟩, ⟨.identifier, "a", ⟨10, 11⟩, 1, 10, 1⟩,
    ⟨.operator .minus, "-", ⟨18, 19⟩, 1, 18, 1⟩, ⟨.identifier, "b", ⟨20, 21⟩, 1, 20, 1⟩,
    ⟨.punctuation .rparen, ")", ⟨21, 22⟩, 1, 21, 1⟩, ⟨.eof, "", ⟨22, 22⟩, 1, 22, 1⟩]

/-- The nodes of the expression in these tokens. -/
def Arena.sample : Arena :=
  ⟨#[⟨.operation .unaryMinus, ⟨0, 7⟩, [], none⟩, ⟨.operation .functionCall, ⟨1, 7⟩, [2, 3], some 7⟩,
    ⟨.identifier, ⟨1, 2⟩, [], some 1⟩, ⟨.arguments, ⟨2, 7⟩, [4], some 1⟩,
    ⟨.operation .subtraction, ⟨3, 6⟩, [5, 6], some 3⟩, ⟨.identifier, ⟨3, 4⟩, [], some 4⟩,
    ⟨.identifier, ⟨5, 6⟩, [], some 4⟩, ⟨.operation .unaryMinus, ⟨0, 7⟩, [1], none⟩]⟩

/-- The argument of the call is read again, without the comment before the call and with the one
inside. -/
theorem rereads_of_ofSource_sample :
    lex "/*é*/ -f(a /*+*/ - b)" = .ok Arena.sampleTokens ∧
      ∃ again r, ExpressionResult.ofSource "a /*+*/ - b" .standard = .ok (again, r) ∧
        r.sexpr again = "subtraction(a, b)" := by
  have hlex : lex "/*é*/ -f(a /*+*/ - b)" = .ok Arena.sampleTokens := by decide +kernel
  have hparts : (ExpressionResult.ofSource "/*é*/ -f(a /*+*/ - b)" .standard).map
      (fun found => (found.1, found.2.arena, found.2.root)) =
        .ok (Arena.sampleTokens, Arena.sample, 7) := by
    decide +kernel
  cases hread : ExpressionResult.ofSource "/*é*/ -f(a /*+*/ - b)" .standard with
  | error e =>
      rw [hread] at hparts
      cases hparts
  | ok found =>
      obtain ⟨tokens, arena, root, next⟩ := found
      simp only [hread, Except.map, Except.ok.injEq, Prod.mk.injEq] at hparts
      obtain ⟨rfl, rfl, rfl⟩ := hparts
      have hid : Arena.sample.Reaches 7 4 := by
        have hcall : 1 ∈ Arena.sample.children 7 := by decide
        have harguments : 3 ∈ Arena.sample.children 1 := by decide
        have hargument : 4 ∈ Arena.sample.children 3 := by decide
        exact .head hcall (.head harguments (.single hargument))
      obtain ⟨hexpression, -⟩ := rereads_of_ofSource "/*é*/ -f(a /*+*/ - b)" _ .standard hlex rfl
        (by decide)
      have hnode : Arena.sample.node? 4 =
          some ⟨.operation .subtraction, ⟨3, 6⟩, [5, 6], some 3⟩ := by
        decide
      obtain ⟨n, hn, hcases⟩ := hexpression _ hread 4 hid
      obtain rfl := Option.some.inj (hn.symm.trans hnode)
      obtain hkind | ⟨again, r, hagain, hsexpr⟩ := hcases
      · cases hkind
      · have hslice : Tree.sourceText Arena.sampleTokens "/*é*/ -f(a /*+*/ - b)".toList ⟨3, 6⟩ =
            "a /*+*/ - b" := by
          decide +kernel
        have htext : Arena.sample.sexpr Arena.sampleTokens 4 = "subtraction(a, b)" := by
          decide +kernel
        rw [hslice] at hagain
        exact ⟨hlex, again, r, hagain, hsexpr.trans htext⟩

end ExprFront
