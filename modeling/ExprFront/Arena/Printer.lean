import ExprFront.Arena.Basic

/-!
# Subtrees as text

A subtree of an arena is written as nested applications. A node of a leaf kind
is written by its literals alone, whatever hangs below it, so that the text of
a node can exist where its tree does not: a leaf may lie below itself. Where
there is a tree, the text is that of the tree.
-/

namespace ExprFront.Arena

/-- The subtree of a node as nested applications, down to so many levels. -/
def sexprWithin (a : Arena) (tokens : Array Token) : Nat → NodeId → String
  | 0, _ => ""
  | levels + 1, id =>
      match a.node? id with
      | none => ""
      | some n =>
          if n.kind.isLeaf then literalsText tokens n.range
          else
            n.kind.name ++ "(" ++
              ", ".intercalate (n.children.map (a.sexprWithin tokens levels)) ++ ")"

/-- The subtree of a node as nested applications. -/
def sexpr (a : Arena) (tokens : Array Token) (id : NodeId) : String :=
  a.sexprWithin tokens a.size id

/-- The texts of nodes are those of their trees if this holds for each node. -/
theorem map_eq_sexprAll_of_mapM
    {tokens : Array Token} {tree? : NodeId → Option Tree} {text : NodeId → String}
    (htext : ∀ id t, tree? id = some t → text id = t.sexpr tokens)
    (ids : List NodeId) (ts : List Tree) (hmap : ids.mapM tree? = some ts) :
    ids.map text = Tree.sexprAll tokens ts := by
  induction ids generalizing ts with
  | nil =>
      simp only [List.mapM_nil, pure, Option.some.injEq] at hmap
      subst hmap
      simp [Tree.sexprAll]
  | cons id more ih =>
      cases hid : tree? id with
      | none => simp [List.mapM_cons, hid] at hmap
      | some t =>
          cases hmore : more.mapM tree? with
          | none => simp [List.mapM_cons, hid, hmore] at hmap
          | some rest =>
              have hts : t :: rest = ts := by
                simpa [List.mapM_cons, hid, hmore] using hmap
              subst hts
              simp [Tree.sexprAll, htext id t hid, ih rest hmore]

/-- Within the levels of its tree, the text of a node is the text of the tree. -/
theorem sexprWithin_eq_of_treeWithin?
    (a : Arena) (tokens : Array Token) (levels : Nat) (id : NodeId) (t : Tree)
    (htree : a.treeWithin? levels id = some t) :
    a.sexprWithin tokens levels id = t.sexpr tokens := by
  induction levels generalizing id t with
  | zero => simp [treeWithin?] at htree
  | succ levels ih =>
      rw [treeWithin?] at htree
      rw [sexprWithin]
      cases hnode : a.node? id with
      | none => simp [hnode] at htree
      | some n =>
          simp only [hnode, Option.map_eq_some_iff] at htree
          obtain ⟨ts, hts, rfl⟩ := htree
          rw [Tree.sexpr]
          have hall := map_eq_sexprAll_of_mapM ih n.children ts hts
          simp [hall]

/-- Where a node has a tree, its text is the text of the tree. -/
theorem sexpr_eq_of_tree?
    (a : Arena) (tokens : Array Token) (id : NodeId) (t : Tree)
    (htree : a.tree? id = some t) : a.sexpr tokens id = t.sexpr tokens :=
  a.sexprWithin_eq_of_treeWithin? tokens a.size id t htree

end ExprFront.Arena
