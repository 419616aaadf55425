import ExprFront.Tree.Kind

/-!
# Syntax trees

A syntax tree is a node kind, the range of tokens that the node spans, and the
subtrees in source order. Trees hold no text: the literals are looked up in the
tokens.
-/

namespace ExprFront

/-- A syntax tree. -/
inductive Tree where
  | node (kind : NodeKind) (range : TokenRange) (children : List Tree)

namespace Tree

/-- The kind of the root. -/
def kind : Tree → NodeKind
  | node k _ _ => k

/-- The tokens that the root spans. -/
def range : Tree → TokenRange
  | node _ r _ => r

/-- The subtrees of the root. -/
def children : Tree → List Tree
  | node _ _ ts => ts

/-- A node without children. -/
def leaf (k : NodeKind) (r : TokenRange) : Tree := node k r []

mutual

/-- The number of nodes of a tree. -/
def size : Tree → Nat
  | node _ _ ts => 1 + sizeAll ts

/-- The number of nodes of several trees. -/
def sizeAll : List Tree → Nat
  | [] => 0
  | t :: ts => t.size + sizeAll ts

end

mutual

/-- The tree as nested applications: names of kinds over the literals of the leaves. -/
def sexpr (tokens : Array Token) : Tree → String
  | node k r ts =>
      if k.isLeaf then literalsText tokens r
      else k.name ++ "(" ++ ", ".intercalate (sexprAll tokens ts) ++ ")"

/-- Several trees as nested applications. -/
def sexprAll (tokens : Array Token) : List Tree → List String
  | [] => []
  | t :: ts => t.sexpr tokens :: sexprAll tokens ts

end

/-- The part of the source that a range of tokens spans, with the blanks and comments inside it. -/
def sourceText (tokens : Array Token) (source : List Char) (range : TokenRange) : String :=
  if range.isEmpty then ""
  else match tokens[range.start]?, tokens[range.stop - 1]? with
    | some first, some last =>
        String.ofList (Span.slice ⟨first.span.start, last.span.stop⟩ source)
    | _, _ => ""

/-- A node in a listing, with the place of its parent in the listing. -/
structure Row where
  parent : Option Nat
  kind : NodeKind
  range : TokenRange
deriving DecidableEq

mutual

/-- The nodes of a tree in preorder, listed from place `next` on. -/
def rowsFrom (parent : Option Nat) (next : Nat) : Tree → List Row
  | node k r ts => ⟨parent, k, r⟩ :: rowsAllFrom (some next) (next + 1) ts

/-- The nodes of several trees in preorder, listed from place `next` on. -/
def rowsAllFrom (parent : Option Nat) (next : Nat) : List Tree → List Row
  | [] => []
  | t :: ts =>
      let rows := rowsFrom parent next t
      rows ++ rowsAllFrom parent (next + rows.length) ts

end

/-- The nodes of a tree in preorder. -/
def rows (t : Tree) : List Row := rowsFrom none 0 t

end Tree

end ExprFront
