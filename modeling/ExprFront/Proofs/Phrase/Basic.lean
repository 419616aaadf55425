import ExprFront.Expression.Climb
import ExprFront.Proofs.Scope.Balance

/-!
# Phrases

A phrase is an expression as it is written, with all its brackets and without
its positions. `Phrase.Spells` says that the tokens from an index on are those
of a phrase, and `Phrase.tree` is the syntax tree of a phrase that starts at an
index. Parentheses in the place of an operand are a node of the tree, unless
they enclose all of what some brackets or separators delimit: `Tree.bare` drops
the node there.

The definitions follow the parts of a bracket group from one separator to the
next: the first part stands directly after the opening mark, each later one
after a comma.
-/

namespace ExprFront

/-- The tree without a node for the parentheses around all of it. -/
def Tree.bare : Tree → Tree
  | .node .subexpression _ [t] => t
  | t => t

/-- The node of a bracket group in the place of an operand. -/
def Bracket.nodeKind : Bracket → NodeKind
  | .paren => .subexpression
  | .square => .listLiteral
  | .brace => .initializerList

/-- An expression as it is written. -/
inductive Phrase where
  /-- A token that is an operand by itself. -/
  | leaf (kind : NodeKind)
  /-- A bracket group in the place of an operand. -/
  | group (b : Bracket) (parts : List Phrase)
  | before (op : Operation) (operand : Phrase)
  | after (operand : Phrase) (op : Operation)
  /-- A bracket group after an operand. -/
  | applied (callee : Phrase) (b : Bracket) (parts : List Phrase)
  | between (left : Phrase) (op : Operation) (right : Phrase)

namespace Phrase

/-- Induction over phrases, with the hypothesis for every part of a bracket group. -/
@[elab_as_elim, induction_eliminator]
theorem induction
    {motive : Phrase → Prop}
    (leaf : ∀ kind, motive (.leaf kind))
    (group : ∀ b parts, (∀ p ∈ parts, motive p) → motive (.group b parts))
    (before : ∀ op operand, motive operand → motive (.before op operand))
    (after : ∀ operand op, motive operand → motive (.after operand op))
    (applied : ∀ callee b parts, motive callee → (∀ p ∈ parts, motive p) →
      motive (.applied callee b parts))
    (between : ∀ left op right, motive left → motive right →
      motive (.between left op right))
    (p : Phrase) : motive p :=
  @Phrase.rec motive (fun parts => ∀ p ∈ parts, motive p) leaf group before after applied between
    (fun _ hp => absurd hp List.not_mem_nil)
    (fun _ _ hhead htail p hp => by
      rcases List.mem_cons.mp hp with rfl | hp
      · exact hhead
      · exact htail p hp) p

/-! ## Tokens of a phrase -/

mutual

/-- The number of tokens of a phrase. -/
def width : Phrase → Nat
  | leaf _ => 1
  | group _ parts => partsWidth parts + 2
  | before _ operand => operand.width + 1
  | after operand _ => operand.width + 1
  | applied callee _ parts => callee.width + (partsWidth parts + 2)
  | between left _ right => left.width + (right.width + 1)

/-- The number of tokens of the parts of a group, the commas included. -/
def partsWidth : List Phrase → Nat
  | [] => 0
  | p :: ps => p.width + laterWidth ps

/-- The number of tokens of the later parts of a group, each with the comma before it. -/
def laterWidth : List Phrase → Nat
  | [] => 0
  | p :: ps => p.width + laterWidth ps + 1

end

mutual

/-- The tokens from an index on are those of the phrase. -/
def Spells (tokens : Array Token) : Phrase → (start : Nat) → Prop
  | leaf kind, start => (kindAt tokens start).bind NodeKind.ofToken? = some kind
  | group b parts, start =>
      kindAt tokens start = some (.punctuation b.opening) ∧
        SpellsParts tokens parts (start + 1) ∧
        kindAt tokens (start + 1 + partsWidth parts) = some (.punctuation b.closing)
  | before op operand, start =>
      (kindAt tokens start).bind TokenKind.before = some op ∧ operand.Spells tokens (start + 1)
  | after operand op, start =>
      operand.Spells tokens start ∧
        (kindAt tokens (start + operand.width)).bind TokenKind.after = some op
  | applied callee b parts, start =>
      callee.Spells tokens start ∧
        kindAt tokens (start + callee.width) = some (.punctuation b.opening) ∧
        SpellsParts tokens parts (start + callee.width + 1) ∧
        kindAt tokens (start + callee.width + 1 + partsWidth parts) =
          some (.punctuation b.closing)
  | between left op right, start =>
      left.Spells tokens start ∧
        (kindAt tokens (start + left.width)).bind TokenKind.between = some op ∧
        right.Spells tokens (start + left.width + 1)

/-- The tokens from an index on are those of the parts of a group. -/
def SpellsParts (tokens : Array Token) : List Phrase → (start : Nat) → Prop
  | [], _ => True
  | p :: ps, start => p.Spells tokens start ∧ SpellsLater tokens ps (start + p.width)

/-- The tokens from an index on are those of the later parts of a group. -/
def SpellsLater (tokens : Array Token) : List Phrase → (start : Nat) → Prop
  | [], _ => True
  | p :: ps, start =>
      kindAt tokens start = some (.punctuation .comma) ∧ p.Spells tokens (start + 1) ∧
        SpellsLater tokens ps (start + 1 + p.width)

end

/-- A bracket group after an operand is spelled like one in the place of an operand. -/
theorem spells_applied_iff
    {tokens : Array Token} {callee : Phrase} {b : Bracket} {parts : List Phrase} {start : Nat} :
    (applied callee b parts).Spells tokens start ↔
      callee.Spells tokens start ∧ (group b parts).Spells tokens (start + callee.width) := by
  simp [Spells]

theorem width_applied
    (callee : Phrase) (b : Bracket) (parts : List Phrase) :
    (applied callee b parts).width = callee.width + (group b parts).width := by
  simp [width]

theorem width_pos (p : Phrase) : 0 < p.width := by
  cases p <;> simp only [width] <;> omega

/-! ## Syntax trees -/

mutual

/-- The syntax tree of the phrase that starts at an index. -/
def tree : Phrase → (start : Nat) → Tree
  | leaf kind, start => .leaf kind ⟨start, start + 1⟩
  | group b parts, start =>
      .node b.nodeKind ⟨start, start + (partsWidth parts + 2)⟩ (partTrees parts (start + 1))
  | before op operand, start =>
      .node (.operation op) ⟨start, start + (operand.width + 1)⟩ [operand.tree (start + 1)]
  | after operand op, start =>
      .node (.operation op) ⟨start, start + (operand.width + 1)⟩ [operand.tree start]
  | applied callee b parts, start =>
      .node (.operation (Reading.groupRole b).1)
        ⟨start, start + (callee.width + (partsWidth parts + 2))⟩
        [callee.tree start,
          .node (Reading.groupRole b).2.1
            ⟨start + callee.width, start + callee.width + (partsWidth parts + 2)⟩
            (partTrees parts (start + callee.width + 1))]
  | between left op right, start =>
      .node (.operation op) ⟨start, start + (left.width + (right.width + 1))⟩
        [left.tree start, right.tree (start + left.width + 1)]

/-- The syntax trees of the parts of a group; parentheses around all of a part make no node. -/
def partTrees : List Phrase → (start : Nat) → List Tree
  | [], _ => []
  | p :: ps, start => (p.tree start).bare :: partTrees ps (start + p.width + 1)

end

/-- The tree of a phrase spans the tokens of the phrase. -/
@[simp] theorem range_tree
    (p : Phrase) (start : Nat) : (p.tree start).range = ⟨start, start + p.width⟩ := by
  cases p <;> simp [tree, width, Tree.range, Tree.leaf]

/-- The ranges of the parts of a group. -/
def partRanges : List Phrase → (start : Nat) → List TokenRange
  | [], _ => []
  | p :: ps, start => ⟨start, start + p.width⟩ :: partRanges ps (start + p.width + 1)

/-! ## Parentheses around a whole phrase -/

/-- Whether the phrase is a pair of grouping parentheses. -/
def isParens : Phrase → Bool
  | group .paren _ => true
  | _ => false

theorem isParens_iff
    {p : Phrase} : p.isParens = true ↔ ∃ parts, p = group .paren parts := by
  constructor
  · intro h
    cases p with
    | group b parts =>
        cases b with
        | paren => exact ⟨parts, rfl⟩
        | square | brace => simp [isParens] at h
    | leaf | before | after | applied | between => simp [isParens] at h
  · rintro ⟨parts, rfl⟩
    rfl

/-- The node of a phrase is dropped only if it is that of grouping parentheses. -/
theorem bare_tree_of_not_isParens
    {p : Phrase} (hp : p.isParens = false) (start : Nat) : (p.tree start).bare = p.tree start := by
  unfold Tree.bare
  split
  · rename_i heq
    cases p with
    | group b parts => cases b <;> simp_all [tree, isParens, Bracket.nodeKind]
    | leaf kind => simp [tree, Tree.leaf] at heq
    | before => simp [tree] at heq
    | after => simp [tree] at heq
    | applied => simp [tree] at heq
    | between => simp [tree] at heq
  · rfl

/-- Without the node of its parentheses, the tree of a phrase in parentheses is that of the
phrase, again without the node of its parentheses. -/
theorem bare_tree_parens
    (p : Phrase) (start : Nat) :
    ((group .paren [p]).tree start).bare = (p.tree (start + 1)).bare := by
  simp [tree, partTrees, Tree.bare, Bracket.nodeKind]

mutual

/-- Grouping parentheses hold exactly one part throughout the phrase. -/
def Single : Phrase → Prop
  | leaf _ => True
  | group b parts => (b = .paren → parts.length = 1) ∧ AllSingle parts
  | before _ operand => operand.Single
  | after operand _ => operand.Single
  | applied callee _ parts => callee.Single ∧ AllSingle parts
  | between left _ right => left.Single ∧ right.Single

/-- Grouping parentheses hold exactly one part throughout several phrases. -/
def AllSingle : List Phrase → Prop
  | [] => True
  | p :: ps => p.Single ∧ AllSingle ps

end

theorem allSingle_iff
    {parts : List Phrase} : AllSingle parts ↔ ∀ p ∈ parts, p.Single := by
  induction parts with
  | nil => simp [AllSingle]
  | cons p ps ih => simp [AllSingle, ih]

mutual

/-- Grouping parentheses are not empty throughout the phrase. -/
def Filled : Phrase → Prop
  | leaf _ => True
  | group b parts => (b = .paren → parts ≠ []) ∧ AllFilled parts
  | before _ operand => operand.Filled
  | after operand _ => operand.Filled
  | applied callee _ parts => callee.Filled ∧ AllFilled parts
  | between left _ right => left.Filled ∧ right.Filled

/-- Grouping parentheses are not empty throughout several phrases. -/
def AllFilled : List Phrase → Prop
  | [] => True
  | p :: ps => p.Filled ∧ AllFilled ps

end

theorem allFilled_iff
    {parts : List Phrase} : AllFilled parts ↔ ∀ p ∈ parts, p.Filled := by
  induction parts with
  | nil => simp [AllFilled]
  | cons p ps ih => simp [AllFilled, ih]

/-- Parentheses that hold exactly one part are not empty. -/
theorem Single.filled
    {p : Phrase} (h : p.Single) : p.Filled := by
  induction p with
  | leaf => trivial
  | group b parts ih =>
      refine ⟨?_, allFilled_iff.mpr fun p hp => ih p hp (allSingle_iff.mp h.2 p hp)⟩
      rintro hb rfl
      simpa using h.1 hb
  | before op operand ih => exact ih h
  | after operand op ih => exact ih h
  | applied callee b parts ihCallee ihParts =>
      exact ⟨ihCallee h.1,
        allFilled_iff.mpr fun p hp => ihParts p hp (allSingle_iff.mp h.2 p hp)⟩
  | between left op right ihLeft ihRight => exact ⟨ihLeft h.1, ihRight h.2⟩

/-! ## Levels of nesting -/

mutual

/-- How many levels of nesting the operands of the phrase cost: one for each operation before an
operand or grouping from the right, and one for each part of a group. Parentheses around all of a
part cost nothing on top. -/
def level : Phrase → Nat
  | leaf _ => 0
  | group _ parts => partsLevel parts
  | before _ operand => operand.level + 1
  | after operand _ => operand.level
  | applied callee _ parts => max callee.level (partsLevel parts)
  | between left op right =>
      max left.level (if op.associativity = .right then right.level + 1 else right.level)

/-- How many levels of nesting the parts of a group cost. -/
def partsLevel : List Phrase → Nat
  | [] => 0
  | p :: ps => max (if p.isParens then p.level else p.level + 1) (partsLevel ps)

end

/-- How many levels of nesting a phrase costs that fills a range. -/
def fillLevel (p : Phrase) : Nat := if p.isParens then p.level else p.level + 1

theorem partsLevel_le_iff
    {parts : List Phrase} {n : Nat} : partsLevel parts ≤ n ↔ ∀ p ∈ parts, p.fillLevel ≤ n := by
  induction parts with
  | nil => simp [partsLevel]
  | cons p ps ih =>
      rw [List.forall_mem_cons, ← ih, partsLevel, Nat.max_le]
      rfl

theorem fillLevel_parens
    (p : Phrase) : (group .paren [p]).fillLevel = p.fillLevel := by
  simp [fillLevel, isParens, level, partsLevel]

theorem laterWidth_le_partsWidth
    (parts : List Phrase) : laterWidth parts ≤ partsWidth parts + 1 := by
  cases parts with
  | nil => exact Nat.zero_le _
  | cons p ps => exact Nat.le_refl _

theorem partsWidth_le_laterWidth
    (parts : List Phrase) : partsWidth parts ≤ laterWidth parts := by
  cases parts with
  | nil => exact Nat.le_refl _
  | cons p ps => exact Nat.le_succ _

theorem laterWidth_le_of_mem
    {parts : List Phrase} {p : Phrase} (hp : p ∈ parts) : p.width ≤ laterWidth parts := by
  induction parts with
  | nil => simp at hp
  | cons q ps ih =>
      simp only [laterWidth]
      rcases List.mem_cons.mp hp with rfl | hp
      · omega
      · have := ih hp
        omega

theorem width_le_partsWidth_of_mem
    {parts : List Phrase} {p : Phrase} (hp : p ∈ parts) : p.width ≤ partsWidth parts := by
  cases parts with
  | nil => simp at hp
  | cons q ps =>
      simp only [partsWidth]
      rcases List.mem_cons.mp hp with rfl | hp
      · omega
      · have := laterWidth_le_of_mem hp
        omega

/-- Every level of nesting takes a token of its own. -/
theorem level_lt_width
    (p : Phrase) : p.level < p.width := by
  have hparts : ∀ parts : List Phrase, (∀ p ∈ parts, p.level < p.width) →
      partsLevel parts ≤ partsWidth parts := by
    intro parts ih
    rw [partsLevel_le_iff]
    intro p hp
    have hlevel := ih p hp
    have hwidth := width_le_partsWidth_of_mem hp
    unfold fillLevel
    split <;> omega
  induction p with
  | leaf => simp [level, width]
  | group b parts ih =>
      have := hparts parts ih
      simp only [level, width]
      omega
  | before op operand ih =>
      simp only [level, width]
      omega
  | after operand op ih =>
      simp only [level, width]
      omega
  | applied callee b parts ihCallee ihParts =>
      have := hparts parts ihParts
      simp only [level, width]
      omega
  | between left op right ihLeft ihRight =>
      simp only [level, width]
      split <;> omega

theorem fillLevel_le_width
    (p : Phrase) : p.fillLevel ≤ p.width := by
  have := p.level_lt_width
  unfold fillLevel
  split <;> omega

end Phrase

end ExprFront
