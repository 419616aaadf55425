import ExprFront.Arena.Basic

/-!
# Collapsing wrappers

A statement node and a node of grouping parentheses say no more than their only
child. Collapsing such a node turns it into the child: it takes over the child's
kind, range and children and keeps its own number and its place below its parent.
The child is left without parent and children.
-/

namespace ExprFront.Arena

/-- A wrapper with a single child becomes that child. -/
def absorb (a : Arena) (id : NodeId) : Except Fault Arena :=
  match a.node? id with
  | none => .ok a
  | some n =>
      match n.kind.isWrapper, n.children with
      | true, [child] =>
          match a.node? child with
          | none => .error (.missingNode child)
          | some c =>
              let (_, a) := a.popBack id
              let (adopted, a) := a.popAll child
              (a.recast id c.kind c.range).pushBackAll id adopted
      | _, _ => .ok a

/-- The nodes below the pending ones, so many at most, every node after its descendants when read
from the front. -/
def descendants (a : Arena) : Nat → List NodeId → List NodeId → List NodeId
  | 0, _, seen => seen
  | _, [], seen => seen
  | steps + 1, id :: pending, seen =>
      a.descendants steps ((a.children id).reverse ++ pending) (id :: seen)

/-- Nodes are collapsed one after the other. -/
def absorbAll (a : Arena) : List NodeId → Except Fault Arena
  | [] => .ok a
  | id :: more =>
      match a.absorb id with
      | .ok a => a.absorbAll more
      | .error f => .error f

/-- Every wrapper in the subtree of a node is collapsed, inner ones first. -/
def simplify (a : Arena) (root : NodeId) : Except Fault Arena :=
  a.absorbAll (a.descendants a.size [root] [])

end ExprFront.Arena
