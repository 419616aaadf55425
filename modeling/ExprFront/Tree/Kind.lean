import ExprFront.Token.Basic

/-!
# Kinds of nodes

The nodes of a syntax tree are leaves, one for each operand token, operations,
and compounds: lists in brackets, grouping parentheses, statements and programs.
-/

namespace ExprFront

/-- How many children a node has. -/
inductive Arity where
  | leaf
  | unary
  | binary
  | variadic
deriving DecidableEq

namespace Arity

/-- The arity in messages. -/
def label : Arity → String
  | leaf => "Leaf"
  | unary => "Unary"
  | binary => "Binary"
  | variadic => "Variadic"

/-- Whether a node of this arity may have so many children. -/
def admits : Arity → Nat → Bool
  | leaf, n => n == 0
  | unary, n => n == 1
  | binary, n => n == 2
  | variadic, _ => true

end Arity

/-- The kind of a node. -/
inductive NodeKind where
  | identifier
  | specialObject (o : SpecialObject)
  | number
  | unsigned
  | bit
  | octet
  | real
  | string
  | operation (op : Operation)
  /-- Parentheses after a callee. -/
  | arguments
  /-- Square brackets after an indexed operand. -/
  | indexArguments
  /-- Braces after a type. -/
  | typeArguments
  /-- Square brackets in the place of an operand. -/
  | listLiteral
  /-- Braces in the place of an operand. -/
  | initializerList
  /-- Parentheses in the place of an operand. -/
  | subexpression
  /-- One value statement. -/
  | expression
  | program
deriving DecidableEq

namespace NodeKind

/-- The leaf of a token that is an operand by itself. -/
def ofToken? : TokenKind → Option NodeKind
  | .identifier => some identifier
  | .specialObject o => some (specialObject o)
  | .number => some number
  | .unsigned => some unsigned
  | .bit => some bit
  | .octet => some octet
  | .real => some real
  | .string => some string
  | _ => none

/-- How many children the kind asks for. -/
def arity : NodeKind → Arity
  | identifier | specialObject _ | number | unsigned | bit | octet | real | string => .leaf
  | operation op => match op.operands with
    | .one => .unary
    | .two => .binary
  | subexpression | expression => .unary
  | arguments | indexArguments | typeArguments | listLiteral | initializerList | program =>
      .variadic

/-- Whether nodes of the kind are leaves. -/
def isLeaf (k : NodeKind) : Bool := k.arity == .leaf

/-- Whether nodes of the kind hold any number of children. -/
def isList (k : NodeKind) : Bool := k.arity == .variadic

/-- Whether a node of the kind says no more than its only child. -/
def isWrapper : NodeKind → Bool
  | expression | subexpression => true
  | _ => false

/-- The name of the kind in printed trees. -/
def name : NodeKind → String
  | identifier => "identifier"
  | specialObject _ => "special_object"
  | number => "number"
  | unsigned => "unsigned"
  | bit => "bit"
  | octet => "octet"
  | real => "real"
  | string => "string"
  | operation op => op.name
  | arguments => "arguments"
  | indexArguments => "index_arguments"
  | typeArguments => "type_arguments"
  | listLiteral => "list_literal"
  | initializerList => "initializer_list"
  | subexpression => "subexpression"
  | expression => "expression"
  | program => "program"

/-- The leaf kinds are exactly those of tokens that are operands by themselves. -/
theorem ofToken?_isSome (k : TokenKind) : (ofToken? k).isSome = k.isOperand := by
  cases k <;> rfl

end NodeKind

end ExprFront
