import ExprFront.Fault
import ExprFront.Tree.Basic

/-!
# Arenas

An arena holds the nodes of syntax trees under numbers that never change. Each
node knows its children in order and its parent. Nodes are only ever added;
one that is cut off from its parent stays in the arena.
-/

namespace ExprFront

/-- The number of a node in its arena. -/
abbrev NodeId := Nat

/-- A node of an arena. -/
structure Node where
  kind : NodeKind
  range : TokenRange
  children : List NodeId
  parent : Option NodeId
deriving DecidableEq

/-- The nodes of syntax trees, by number. -/
structure Arena where
  nodes : Array Node
deriving DecidableEq

namespace Arena

/-- The arena without nodes. -/
def empty : Arena := ⟨#[]⟩

/-- The number of nodes, those without a parent included. -/
def size (a : Arena) : Nat := a.nodes.size

/-- The node with a number. -/
def node? (a : Arena) (id : NodeId) : Option Node := a.nodes[id]?

/-- The children of a node, none if there is no such node. -/
def children (a : Arena) (id : NodeId) : List NodeId :=
  match a.node? id with
  | some n => n.children
  | none => []

/-- The parent of a node. -/
def parent (a : Arena) (id : NodeId) : Option NodeId := (a.node? id).bind Node.parent

/-- The arena with one node changed. -/
def modify (a : Arena) (id : NodeId) (f : Node → Node) : Arena := ⟨a.nodes.modify id f⟩

/-- A node exists exactly if its number is below the size. -/
theorem node?_isSome_iff
    (a : Arena) (id : NodeId) : (a.node? id).isSome = true ↔ id < a.size := by
  simp [node?, size]

@[simp] theorem size_modify
    (a : Arena) (id : NodeId) (f : Node → Node) : (a.modify id f).size = a.size := by
  simp [modify, size]

/-- The changed node is the only one that differs. -/
theorem node?_modify
    (a : Arena) (id other : NodeId) (f : Node → Node) :
    (a.modify id f).node? other =
      if id = other then (a.node? other).map f else a.node? other := by
  simp [modify, node?, Array.getElem?_modify]

/-- A new node with neither children nor parent. -/
def add (a : Arena) (kind : NodeKind) (range : TokenRange) : NodeId × Arena :=
  (a.nodes.size, ⟨a.nodes.push ⟨kind, range, [], none⟩⟩)

@[simp] theorem add_fst
    (a : Arena) (kind : NodeKind) (range : TokenRange) : (a.add kind range).1 = a.size := rfl

@[simp] theorem size_add_snd
    (a : Arena) (kind : NodeKind) (range : TokenRange) :
    (a.add kind range).2.size = a.size + 1 := by
  simp [add, size]

/-- The new node has the number that was the size before; the others stay as they were. -/
theorem node?_add_snd
    (a : Arena) (kind : NodeKind) (range : TokenRange) (id : NodeId) :
    (a.add kind range).2.node? id =
      if id = a.size then some ⟨kind, range, [], none⟩ else a.node? id := by
  by_cases hid : id = a.nodes.size <;> simp [add, node?, size, Array.getElem?_push, hid]

/-- A node is given a parent, which it may not have yet. -/
def setParent (a : Arena) (parent child : NodeId) : Except Fault Arena :=
  match a.node? child, a.node? parent with
  | some c, some _ =>
      match c.parent with
      | none => .ok (a.modify child fun n => { n with parent := some parent })
      | some _ => .error (.alreadyAttached child)
  | none, _ => .error (.missingNode child)
  | _, none => .error (.missingNode parent)

/-- A node can be given a parent exactly if both exist and it has none. -/
theorem setParent_eq_ok_iff
    (a b : Arena) (parent child : NodeId) :
    a.setParent parent child = .ok b ↔
      (∃ c, a.node? child = some c ∧ c.parent = none) ∧ (a.node? parent).isSome = true ∧
        b = a.modify child fun n => { n with parent := some parent } := by
  cases hc : a.node? child <;> cases hp : a.node? parent <;> simp [setParent, hc, hp]
  rename_i c p
  cases hcp : c.parent <;> simp [eq_comm]

/-- A node becomes the last child of another. -/
def pushBack (a : Arena) (parent child : NodeId) : Except Fault Arena :=
  (a.setParent parent child).map fun a =>
    a.modify parent fun n => { n with children := n.children ++ [child] }

/-- A node becomes the first child of another. -/
def pushFront (a : Arena) (parent child : NodeId) : Except Fault Arena :=
  (a.setParent parent child).map fun a =>
    a.modify parent fun n => { n with children := child :: n.children }

/-- Several nodes become the last children of another. -/
def pushBackAll (a : Arena) (parent : NodeId) : List NodeId → Except Fault Arena
  | [] => .ok a
  | child :: more =>
      match a.pushBack parent child with
      | .ok a => a.pushBackAll parent more
      | .error f => .error f

/-- A node loses its parent. -/
def clearParent (a : Arena) (id : NodeId) : Arena :=
  a.modify id fun n => { n with parent := none }

/-- The last child of a node is cut off. -/
def popBack (a : Arena) (id : NodeId) : Option NodeId × Arena :=
  match (a.children id).getLast? with
  | none => (none, a)
  | some child =>
      (some child,
        (a.modify id fun n => { n with children := n.children.dropLast }).clearParent child)

/-- The first child of a node is cut off. -/
def popFront (a : Arena) (id : NodeId) : Option NodeId × Arena :=
  match a.children id with
  | [] => (none, a)
  | child :: _ =>
      (some child,
        (a.modify id fun n => { n with children := n.children.tail }).clearParent child)

/-- All children of a node are cut off. -/
def popAll (a : Arena) (id : NodeId) : List NodeId × Arena :=
  let cut := a.children id
  (cut, cut.foldl clearParent (a.modify id fun n => { n with children := [] }))

/-- A node takes another kind and range and keeps its place. -/
def recast (a : Arena) (id : NodeId) (kind : NodeKind) (range : TokenRange) : Arena :=
  a.modify id fun n => { n with kind := kind, range := range }

/-- Every node takes the range that its own is mapped to. -/
def mapRanges (a : Arena) (f : TokenRange → TokenRange) : Arena :=
  ⟨a.nodes.map fun n => { n with range := f n.range }⟩

@[simp] theorem size_clearParent
    (a : Arena) (id : NodeId) : (a.clearParent id).size = a.size := by
  simp [clearParent]

@[simp] theorem size_recast
    (a : Arena) (id : NodeId) (kind : NodeKind) (range : TokenRange) :
    (a.recast id kind range).size = a.size := by
  simp [recast]

@[simp] theorem size_mapRanges
    (a : Arena) (f : TokenRange → TokenRange) : (a.mapRanges f).size = a.size := by
  simp [mapRanges, size]

/-- The nearest node of a kind on the way up from `id`, which is sought among so many ancestors. -/
def ancestorWithin? (a : Arena) (kind : NodeKind) : Nat → NodeId → Option NodeId
  | 0, _ => none
  | steps + 1, id =>
      match a.parent id with
      | none => none
      | some p =>
          if (a.node? p).any (·.kind == kind) then some p
          else a.ancestorWithin? kind steps p

/-- The nearest proper ancestor of a kind. -/
def ancestor? (a : Arena) (id : NodeId) (kind : NodeKind) : Option NodeId :=
  a.ancestorWithin? kind a.size id

/-- The tree below a node, if it has no more than so many levels. -/
def treeWithin? (a : Arena) : Nat → NodeId → Option Tree
  | 0, _ => none
  | levels + 1, id =>
      match a.node? id with
      | none => none
      | some n => (n.children.mapM (a.treeWithin? levels)).map (Tree.node n.kind n.range)

/-- The tree below a node. There is none if the node is missing or lies below itself. -/
def tree? (a : Arena) (id : NodeId) : Option Tree := a.treeWithin? a.size id

end Arena

end ExprFront
