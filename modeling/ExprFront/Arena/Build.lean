import ExprFront.Arena.Basic

/-!
# Trees in arenas

A tree is put into an arena node by node. The node of a list is added before
its items, every other node after its children. Copying from one arena to
another adds a node before its descendants, and takes the subtrees of a node
from the last to the first.
-/

namespace ExprFront.Arena

mutual

/-- A tree is put into the arena; the number is that of its root. -/
def build (a : Arena) : Tree → Except Fault (NodeId × Arena)
  | .node kind range ts =>
      if kind.isList then
        let (id, a) := a.add kind range
        match buildInto id a ts with
        | .ok a => .ok (id, a)
        | .error f => .error f
      else
        match buildAll a ts with
        | .error f => .error f
        | .ok (ids, a) =>
            let (id, a) := a.add kind range
            match a.pushBackAll id ids with
            | .ok a => .ok (id, a)
            | .error f => .error f

/-- Trees are put into the arena one after the other, each below the node at once. -/
def buildInto (id : NodeId) (a : Arena) : List Tree → Except Fault Arena
  | [] => .ok a
  | t :: ts =>
      match build a t with
      | .error f => .error f
      | .ok (child, a) =>
          match a.pushBack id child with
          | .ok a => buildInto id a ts
          | .error f => .error f

/-- Trees are put into the arena one after the other. -/
def buildAll (a : Arena) : List Tree → Except Fault (List NodeId × Arena)
  | [] => .ok ([], a)
  | t :: ts =>
      match build a t with
      | .error f => .error f
      | .ok (id, a) =>
          match buildAll a ts with
          | .ok (ids, a) => .ok (id :: ids, a)
          | .error f => .error f

end

/-- Copies of nodes become the last children of a node. The result pairs each node with its copy,
the last first. -/
def copyInto (source : Arena) (parent : NodeId) :
    List NodeId → List (NodeId × NodeId) → Arena → Except Fault (List (NodeId × NodeId) × Arena)
  | [], copied, a => .ok (copied, a)
  | id :: more, copied, a =>
      match source.node? id with
      | none => .error (.missingNode id)
      | some n =>
          let (copy, a) := a.add n.kind n.range
          match a.pushBack parent copy with
          | .ok a => copyInto source parent more ((id, copy) :: copied) a
          | .error f => .error f

/-- The children of pending nodes are copied, so many times over. -/
def copyPending (source : Arena) :
    Nat → List (NodeId × NodeId) → Arena → Except Fault Arena
  | _, [], a => .ok a
  | 0, _ :: _, _ => .error .exhausted
  | steps + 1, (id, copy) :: pending, a =>
      match copyInto source copy (source.children id) [] a with
      | .ok (copied, a) => copyPending source steps (copied ++ pending) a
      | .error f => .error f

/-- The subtree of another arena is copied into this one; the number is that of its new root. -/
def copyTree (a source : Arena) (id : NodeId) : Except Fault (NodeId × Arena) :=
  match source.node? id with
  | none => .error (.missingNode id)
  | some n =>
      let (root, a) := a.add n.kind n.range
      match copyPending source source.size [(id, root)] a with
      | .ok a => .ok (root, a)
      | .error f => .error f

end ExprFront.Arena
