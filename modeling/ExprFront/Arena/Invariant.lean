import ExprFront.Arena.Basic

/-!
# Well-formed subtrees

The check of a subtree goes through its nodes in preorder and reports the first
one that breaks a rule: the number of children fits the kind, a leaf spans one
token, children name their parent, and the ranges of siblings are in order,
disjoint and inside the range of the parent.
-/

namespace ExprFront.Arena

/-- A rule that a node breaks. -/
inductive Breach where
  | childCount (count : Nat) (arity : Arity)
  | leafLength (length : Nat)
  | wrongParent (child : NodeId) (parent : Option NodeId)
  | outside (child range : TokenRange)
  | overlap (child : TokenRange)
  /-- The subtree has no such node, or a node lies below itself. -/
  | broken (fault : Fault)
deriving DecidableEq

/-- A node by its number, as messages show it. -/
def idText (id : NodeId) : String := "NodeId(" ++ toString id ++ ")"

/-- A parent, if any, as messages show it. -/
def parentText : Option NodeId → String
  | none => "None"
  | some id => "Some(" ++ idText id ++ ")"

/-- The breach in words. -/
def Breach.message : Breach → String
  | childCount count arity => toString count ++ " children for arity " ++ arity.label
  | leafLength length => "leaf spans " ++ toString length ++ " tokens"
  | wrongParent child parent => "child " ++ idText child ++ " has parent " ++ parentText parent
  | outside child range => "child range " ++ child.text ++ " outside " ++ range.text
  | overlap child => "child range " ++ child.text ++ " overlaps or precedes its sibling"
  | broken fault => fault.message

/-- A node that breaks a rule. -/
structure Violation where
  node : NodeId
  kind : NodeKind
  breach : Breach
deriving DecidableEq

/-- The violation in words, with the node. -/
def Violation.text (v : Violation) : String :=
  "node " ++ idText v.node ++ " (" ++ v.kind.name ++ "): " ++ v.breach.message

/-- The rule that a node breaks by itself, without regard to its children's nodes. -/
def ownBreach? (n : Node) : Option Breach :=
  if !n.kind.arity.admits n.children.length then
    some (.childCount n.children.length n.kind.arity)
  else if n.kind.isLeaf && n.range.length != 1 then some (.leafLength n.range.length)
  else none

/-- The rule that a child breaks below its parent, earlier siblings reaching up to `cursor`. -/
def childBreach? (id : NodeId) (n : Node) (cursor : Nat) (child : NodeId) (c : Node) :
    Option Breach :=
  if c.parent ≠ some id then some (.wrongParent child c.parent)
  else if !n.range.contains c.range then some (.outside c.range n.range)
  else if c.range.start < cursor then some (.overlap c.range)
  else none

/-- The children of a node are checked in order, each with its own subtree by `checkSubtree`. -/
def checkChildren
    (a : Arena) (checkSubtree : NodeId → Except Violation Unit) (id : NodeId) (n : Node) :
    (cursor : Nat) → List NodeId → Except Violation Unit
  | _, [] => .ok ()
  | cursor, child :: more =>
      match a.node? child with
      | none => .error ⟨id, n.kind, .broken (.missingNode child)⟩
      | some c =>
          match childBreach? id n cursor child c with
          | some breach => .error ⟨id, n.kind, breach⟩
          | none =>
              match checkSubtree child with
              | .ok () => checkChildren a checkSubtree id n c.range.stop more
              | .error v => .error v

/-- The check of a subtree with so many levels at most. -/
def checkWithin (a : Arena) : Nat → NodeId → Except Violation Unit
  | 0, id => .error ⟨id, .program, .broken .exhausted⟩
  | levels + 1, id =>
      match a.node? id with
      | none => .error ⟨id, .program, .broken (.missingNode id)⟩
      | some n =>
          match ownBreach? n with
          | some breach => .error ⟨id, n.kind, breach⟩
          | none => checkChildren a (a.checkWithin levels) id n n.range.start n.children

/-- The check of a subtree. -/
def check (a : Arena) (id : NodeId) : Except Violation Unit := a.checkWithin (a.size + 1) id

end ExprFront.Arena
