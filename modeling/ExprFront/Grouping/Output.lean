import ExprFront.Token.Basic

/-!
# Grouped tokens

Grouping an expression copies its tokens and inserts parentheses between them.
Each token of the result remembers the input token that it was copied from; an
inserted parenthesis comes from none. Ranges of the result are mapped back to
ranges of the input by what was copied.
-/

namespace ExprFront

/-- A token of a grouped expression. -/
structure GroupedToken where
  token : Token
  /-- The index of the input token that was copied, none for an inserted parenthesis. -/
  source : Option Nat
deriving DecidableEq

/-- An expression in which every application has parentheses of its own. -/
structure Grouped where
  entries : Array GroupedToken
deriving DecidableEq

namespace Grouped

/-- The tokens of the grouped expression. -/
def tokens (g : Grouped) : Array Token := g.entries.map (·.token)

/-- Where each token was copied from. -/
def sources (g : Grouped) : Array (Option Nat) := g.entries.map (·.source)

/-- The literals of all tokens, one after the other. -/
def text (g : Grouped) : String := String.join (g.entries.toList.map (·.token.literal))

/-- Whether the token with an index is an inserted parenthesis of this kind. -/
def isInserted (g : Grouped) (index : Nat) (p : Punctuation) : Bool :=
  g.entries[index]?.any fun e => e.token.isPunctuation p && e.source.isNone

/-- The input tokens that were copied into a range of the result. -/
def copied (g : Grouped) (range : TokenRange) : List Nat :=
  (g.entries.extract range.start range.stop).toList.filterMap (·.source)

/-- The range of the input from the first to the last token copied into a range of the result. If
none was copied there, it is the empty range after what was copied before. -/
def sourceRange (g : Grouped) (range : TokenRange) : TokenRange :=
  let inside := g.copied range
  match inside.head?, inside.getLast? with
  | some first, some last => ⟨first, last + 1⟩
  | _, _ =>
      match (g.copied ⟨0, range.start⟩).getLast? with
      | some last => ⟨last + 1, last + 1⟩
      | none => ⟨0, 0⟩

end Grouped

end ExprFront
