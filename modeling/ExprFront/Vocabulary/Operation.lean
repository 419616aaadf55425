/-!
# Operations

An operation is what an operator, or a bracket group after an operand, does to
its operands. Priorities order the operations by how tightly they bind: of two
neighbouring operations the one of higher priority takes the operand between
them. Equal priorities are decided by associativity.
-/

namespace ExprFront

/-- How a chain of operations of equal priority groups. -/
inductive Associativity where
  | left
  | right
  /-- The operation may not be chained at all. -/
  | nonassoc
deriving DecidableEq

/-- The name under which an associativity is listed. -/
def Associativity.label : Associativity → String
  | .left => "Left"
  | .right => "Right"
  | .nonassoc => "None"

/-- Where an operation stands relative to its operands. -/
inductive Fixity where
  | before
  | between
  | after
deriving DecidableEq

/-- The name under which a fixity is listed. -/
def Fixity.label : Fixity → String
  | .before => "Prefix"
  | .between => "Binary"
  | .after => "Postfix"

/-- How many subtrees an operation owns. -/
inductive OperandCount where
  | one
  | two
deriving DecidableEq

/-- The name under which an operand count is listed. -/
def OperandCount.label : OperandCount → String
  | .one => "Unary"
  | .two => "Binary"

/-- The operations of the language. -/
inductive Operation where
  | assignment
  | additionAssignment
  | subtractionAssignment
  | multiplicationAssignment
  | divisionAssignment
  | remainderAssignment
  | bitwiseAndAssignment
  | bitwiseOrAssignment
  | bitwiseXorAssignment
  | leftShiftAssignment
  | rightShiftAssignment
  | logicalOr
  | logicalAnd
  | bitwiseOr
  | bitwiseXor
  | bitwiseAnd
  | equal
  | notEqual
  | less
  | lessEqual
  | greater
  | greaterEqual
  | threeWayComparison
  | leftShift
  | rightShift
  | addition
  | subtraction
  | multiplication
  | division
  | remainder
  | unaryMinus
  | logicalNot
  | bitwiseNot
  | prefixIncrement
  | prefixDecrement
  | postfixIncrement
  | postfixDecrement
  | functionCall
  | indexOperator
  | typeCall
  | memberAccess
deriving DecidableEq

/-- What is fixed about an operation. -/
structure OperationEntry where
  /-- The name under which the operation is listed. -/
  label : String
  /-- The name of its nodes in printed trees. -/
  name : String
  /-- The operator spelling, or the bracket pair of a bracketed operation. -/
  symbol : String
  priority : Nat
  associativity : Associativity
  fixity : Fixity
  operands : OperandCount

namespace Operation

/-- Priority of the assignments, the loosest operations. -/
def assignmentPriority : Nat := 2

/-- Priority shared by all operations that stand before their operand. -/
def beforePriority : Nat := 13

/-- Priority shared by all operations that stand after their operand, bracket groups included. -/
def afterPriority : Nat := 14

/-- Priority of member access, the tightest operation. -/
def memberAccessPriority : Nat := 15

/-- An operation between two operands. -/
def entryBetween (label name symbol : String) (priority : Nat) (associativity : Associativity) :
    OperationEntry :=
  ⟨label, name, symbol, priority, associativity, .between, .two⟩

/-- An assignment: loosest of all, and grouped from the right. -/
def entryAssignment (label name symbol : String) : OperationEntry :=
  entryBetween label name symbol assignmentPriority .right

/-- An operation before its operand. -/
def entryBefore (label name symbol : String) : OperationEntry :=
  ⟨label, name, symbol, beforePriority, .right, .before, .one⟩

/-- An operation after its operand. -/
def entryAfter (label name symbol : String) : OperationEntry :=
  ⟨label, name, symbol, afterPriority, .left, .after, .one⟩

/-- A bracket group after an operand: it owns the operand and the list of its arguments. -/
def entryGroup (label name symbol : String) : OperationEntry :=
  ⟨label, name, symbol, afterPriority, .left, .after, .two⟩

/-- The table of operations. -/
def entry : Operation → OperationEntry
  | assignment => entryAssignment "Assignment" "assignment" "="
  | additionAssignment => entryAssignment "AdditionAssignment" "addition_assignment" "+="
  | subtractionAssignment => entryAssignment "SubtractionAssignment" "subtraction_assignment" "-="
  | multiplicationAssignment =>
      entryAssignment "MultiplicationAssignment" "multiplication_assignment" "*="
  | divisionAssignment => entryAssignment "DivisionAssignment" "division_assignment" "/="
  | remainderAssignment => entryAssignment "RemainderAssignment" "remainder_assignment" "%="
  | bitwiseAndAssignment => entryAssignment "BitwiseAndAssignment" "bitwise_and_assignment" "&="
  | bitwiseOrAssignment => entryAssignment "BitwiseOrAssignment" "bitwise_or_assignment" "|="
  | bitwiseXorAssignment => entryAssignment "BitwiseXorAssignment" "bitwise_xor_assignment" "^="
  | leftShiftAssignment => entryAssignment "LeftShiftAssignment" "left_shift_assignment" "<<="
  | rightShiftAssignment => entryAssignment "RightShiftAssignment" "right_shift_assignment" ">>="
  | logicalOr => entryBetween "LogicalOr" "logical_or" "||" 3 .left
  | logicalAnd => entryBetween "LogicalAnd" "logical_and" "&&" 4 .left
  | bitwiseOr => entryBetween "BitwiseOr" "bitwise_or" "|" 5 .left
  | bitwiseXor => entryBetween "BitwiseXor" "bitwise_xor" "^" 6 .left
  | bitwiseAnd => entryBetween "BitwiseAnd" "bitwise_and" "&" 7 .left
  | equal => entryBetween "Equal" "equal" "==" 8 .left
  | notEqual => entryBetween "NotEqual" "not_equal" "!=" 8 .left
  | less => entryBetween "Less" "less" "<" 9 .left
  | lessEqual => entryBetween "LessEqual" "less_equal" "<=" 9 .left
  | greater => entryBetween "Greater" "greater" ">" 9 .left
  | greaterEqual => entryBetween "GreaterEqual" "greater_equal" ">=" 9 .left
  | threeWayComparison => entryBetween "ThreeWayComparison" "three_way_comparison" "<=>" 9 .nonassoc
  | leftShift => entryBetween "LeftShift" "left_shift" "<<" 10 .left
  | rightShift => entryBetween "RightShift" "right_shift" ">>" 10 .left
  | addition => entryBetween "Addition" "addition" "+" 11 .left
  | subtraction => entryBetween "Subtraction" "subtraction" "-" 11 .left
  | multiplication => entryBetween "Multiplication" "multiplication" "*" 12 .left
  | division => entryBetween "Division" "division" "/" 12 .left
  | remainder => entryBetween "Remainder" "remainder" "%" 12 .left
  | unaryMinus => entryBefore "UnaryMinus" "unary_minus" "-"
  | logicalNot => entryBefore "LogicalNot" "logical_not" "!"
  | bitwiseNot => entryBefore "BitwiseNot" "bitwise_not" "~"
  | prefixIncrement => entryBefore "PrefixIncrement" "prefix_increment" "++"
  | prefixDecrement => entryBefore "PrefixDecrement" "prefix_decrement" "--"
  | postfixIncrement => entryAfter "PostfixIncrement" "postfix_increment" "++"
  | postfixDecrement => entryAfter "PostfixDecrement" "postfix_decrement" "--"
  | functionCall => entryGroup "FunctionCall" "function_call" "()"
  | indexOperator => entryGroup "IndexOperator" "index_operator" "[]"
  | typeCall => entryGroup "TypeCall" "type_call" "\x7b\x7d"
  | memberAccess => entryBetween "MemberAccess" "member_access" "." memberAccessPriority .left

/-- All operations, in the order of the table. -/
def all : List Operation :=
  [assignment, additionAssignment, subtractionAssignment, multiplicationAssignment,
    divisionAssignment, remainderAssignment, bitwiseAndAssignment, bitwiseOrAssignment,
    bitwiseXorAssignment, leftShiftAssignment, rightShiftAssignment, logicalOr, logicalAnd,
    bitwiseOr, bitwiseXor, bitwiseAnd, equal, notEqual, less, lessEqual, greater, greaterEqual,
    threeWayComparison, leftShift, rightShift, addition, subtraction, multiplication, division,
    remainder, unaryMinus, logicalNot, bitwiseNot, prefixIncrement, prefixDecrement,
    postfixIncrement, postfixDecrement, functionCall, indexOperator, typeCall, memberAccess]

/-- No operation is missing from the list. -/
theorem mem_all (op : Operation) : op ∈ all := by
  cases op <;> decide

/-- The name of the operation's nodes in printed trees. -/
def name (op : Operation) : String := op.entry.name

/-- How tightly the operation binds. -/
def priority (op : Operation) : Nat := op.entry.priority

/-- How chains of the operation group. -/
def associativity (op : Operation) : Associativity := op.entry.associativity

/-- How many subtrees the operation owns. -/
def operands (op : Operation) : OperandCount := op.entry.operands

end Operation

end ExprFront
