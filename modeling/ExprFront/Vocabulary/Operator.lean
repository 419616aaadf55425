import ExprFront.Vocabulary.Operation
import ExprFront.Vocabulary.Release

/-!
# Operators

An operator is a spelling. Which operation it denotes depends on where it
stands: before an operand, between two, or after one. A spelling may serve in
several places, as the minus sign does.
-/

namespace ExprFront

/-- A broad grouping of the operators. -/
inductive OperatorCategory where
  | assignment
  | logical
  | bitwise
  | comparison
  | arithmetic
  /-- Member access, which is recognised together with the ellipsis and not as a symbol. -/
  | access
deriving DecidableEq

/-- The name under which a category is listed. -/
def OperatorCategory.label : OperatorCategory → String
  | .assignment => "Assignment"
  | .logical => "Logical"
  | .bitwise => "Bitwise"
  | .comparison => "Comparison"
  | .arithmetic => "Arithmetic"
  | .access => "Access"

/-- The operators of the language. -/
inductive Operator where
  | eq
  | plusEq
  | minusEq
  | starEq
  | slashEq
  | percentEq
  | ampEq
  | pipeEq
  | caretEq
  | shlEq
  | shrEq
  | orOr
  | andAnd
  | bang
  | pipe
  | caret
  | amp
  | tilde
  | shl
  | shr
  | eqEq
  | notEq
  | lt
  | ltEq
  | gt
  | gtEq
  | spaceship
  | plus
  | minus
  | star
  | slash
  | percent
  | plusPlus
  | minusMinus
  | dot
deriving DecidableEq

/-- What is fixed about an operator. -/
structure OperatorEntry where
  /-- The name under which the operator is listed. -/
  label : String
  spelling : String
  category : OperatorCategory
  /-- The operation denoted before an operand. -/
  before : Option Operation
  /-- The operation denoted between two operands. -/
  between : Option Operation
  /-- The operation denoted after an operand. -/
  after : Option Operation
  since : Release

namespace Operator

/-- An operator that only stands between two operands. -/
def entryBetween (label spelling : String) (category : OperatorCategory) (op : Operation) :
    OperatorEntry :=
  ⟨label, spelling, category, none, some op, none, .first⟩

/-- An operator that only stands before an operand. -/
def entryBefore (label spelling : String) (category : OperatorCategory) (op : Operation) :
    OperatorEntry :=
  ⟨label, spelling, category, some op, none, none, .first⟩

/-- The table of operators. -/
def entry : Operator → OperatorEntry
  | eq => entryBetween "Eq" "=" .assignment .assignment
  | plusEq => entryBetween "PlusEq" "+=" .assignment .additionAssignment
  | minusEq => entryBetween "MinusEq" "-=" .assignment .subtractionAssignment
  | starEq => entryBetween "StarEq" "*=" .assignment .multiplicationAssignment
  | slashEq => entryBetween "SlashEq" "/=" .assignment .divisionAssignment
  | percentEq => entryBetween "PercentEq" "%=" .assignment .remainderAssignment
  | ampEq => entryBetween "AmpEq" "&=" .assignment .bitwiseAndAssignment
  | pipeEq => entryBetween "PipeEq" "|=" .assignment .bitwiseOrAssignment
  | caretEq => entryBetween "CaretEq" "^=" .assignment .bitwiseXorAssignment
  | shlEq => entryBetween "ShlEq" "<<=" .assignment .leftShiftAssignment
  | shrEq => entryBetween "ShrEq" ">>=" .assignment .rightShiftAssignment
  | orOr => entryBetween "OrOr" "||" .logical .logicalOr
  | andAnd => entryBetween "AndAnd" "&&" .logical .logicalAnd
  | bang => entryBefore "Bang" "!" .logical .logicalNot
  | pipe => entryBetween "Pipe" "|" .bitwise .bitwiseOr
  | caret => entryBetween "Caret" "^" .bitwise .bitwiseXor
  | amp => entryBetween "Amp" "&" .bitwise .bitwiseAnd
  | tilde => entryBefore "Tilde" "~" .bitwise .bitwiseNot
  | shl => entryBetween "Shl" "<<" .bitwise .leftShift
  | shr => entryBetween "Shr" ">>" .bitwise .rightShift
  | eqEq => entryBetween "EqEq" "==" .comparison .equal
  | notEq => entryBetween "NotEq" "!=" .comparison .notEqual
  | lt => entryBetween "Lt" "<" .comparison .less
  | ltEq => entryBetween "LtEq" "<=" .comparison .lessEqual
  | gt => entryBetween "Gt" ">" .comparison .greater
  | gtEq => entryBetween "GtEq" ">=" .comparison .greaterEqual
  | spaceship => entryBetween "Spaceship" "<=>" .comparison .threeWayComparison
  | plus => entryBetween "Plus" "+" .arithmetic .addition
  | minus => ⟨"Minus", "-", .arithmetic, some .unaryMinus, some .subtraction, none, .first⟩
  | star => entryBetween "Star" "*" .arithmetic .multiplication
  | slash => entryBetween "Slash" "/" .arithmetic .division
  | percent => entryBetween "Percent" "%" .arithmetic .remainder
  | plusPlus =>
      ⟨"PlusPlus", "++", .arithmetic, some .prefixIncrement, none, some .postfixIncrement, .first⟩
  | minusMinus =>
      ⟨"MinusMinus", "--", .arithmetic, some .prefixDecrement, none, some .postfixDecrement, .first⟩
  | dot => entryBetween "Dot" "." .access .memberAccess

/-- All operators, in the order of the table. -/
def all : List Operator :=
  [eq, plusEq, minusEq, starEq, slashEq, percentEq, ampEq, pipeEq, caretEq, shlEq, shrEq, orOr,
    andAnd, bang, pipe, caret, amp, tilde, shl, shr, eqEq, notEq, lt, ltEq, gt, gtEq, spaceship,
    plus, minus, star, slash, percent, plusPlus, minusMinus, dot]

/-- No operator is missing from the list. -/
theorem mem_all (op : Operator) : op ∈ all := by
  cases op <;> decide

/-- How the operator is written. -/
def spelling (op : Operator) : String := op.entry.spelling

/-- The operation denoted before an operand. -/
def before (op : Operator) : Option Operation := op.entry.before

/-- The operation denoted between two operands. -/
def between (op : Operator) : Option Operation := op.entry.between

/-- The operation denoted after an operand. -/
def after (op : Operator) : Option Operation := op.entry.after

/-- Whether the operator is recognised by its symbols alone. -/
def isSymbol (op : Operator) : Bool := op.entry.category != .access

/-- The operators recognised by their symbols alone. -/
def symbols : List Operator := all.filter isSymbol

/-- The operator that is written exactly so. -/
def ofSpelling? (text : String) : Option Operator :=
  all.find? fun op => op.spelling == text

/-- Whether the operator is written at the start of the text. -/
def startsText (op : Operator) (text : List Char) : Bool :=
  op.spelling.toList.isPrefixOf text

/-- The longer of two spellings; of two equally long ones the later. -/
def longer (best : Option Operator) (op : Operator) : Option Operator :=
  match best with
  | none => some op
  | some b => if b.spelling.length ≤ op.spelling.length then some op else some b

/-- The longest symbol operator written at the start of the text. -/
def longestMatch? (text : List Char) : Option Operator :=
  (symbols.filter (·.startsText text)).foldl longer none

/-- Whether some symbol operator starts with the character. -/
def startsSymbol (c : Char) : Bool :=
  symbols.any fun op => op.spelling.toList.head? == some c

end Operator

end ExprFront
