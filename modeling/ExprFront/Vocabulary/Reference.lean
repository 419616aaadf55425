import ExprFront.Vocabulary.Directive
import ExprFront.Vocabulary.Operator
import ExprFront.Vocabulary.Punctuation
import ExprFront.Vocabulary.SpecialObject

/-!
# The reference page

A page in Markdown that lists the whole vocabulary, one table for each part.
-/

namespace ExprFront.Reference

/-- One row of a table. -/
def row (cells : List String) : String :=
  "| " ++ " | ".intercalate cells ++ " |"

/-- A cell in code type. -/
def coded (text : String) : String := "`" ++ text ++ "`"

/-- The rows of the directives. -/
def directiveRows : List String :=
  Directive.all.map fun d =>
    let i := d.entry
    row [i.label, coded d.marked, i.category.label, i.description, i.since.text, i.stability.label]

/-- The rows of the special objects. -/
def specialObjectRows : List String :=
  SpecialObject.all.map fun o =>
    let i := o.entry
    row [i.label, coded ("@" ++ i.spelling), if i.isType then "yes" else "", i.since.text]

/-- The name of an operation, or an empty cell. -/
def role : Option Operation → String
  | some op => coded op.name
  | none => ""

/-- The rows of the operators. -/
def operatorRows : List String :=
  Operator.all.map fun o =>
    let i := o.entry
    row [i.label, coded i.spelling, i.category.label, role i.before, role i.between, role i.after,
      i.since.text]

/-- The operations from the tightest to the loosest, those of one priority in table order. -/
def operationsByPriority : List Operation :=
  Operation.all.mergeSort fun x y => y.priority ≤ x.priority

/-- The rows of the operations. -/
def operationRows : List String :=
  operationsByPriority.map fun op =>
    let i := op.entry
    row [coded i.name, coded i.symbol, toString i.priority, i.associativity.label, i.fixity.label,
      i.operands.label]

/-- The rows of the punctuation marks. -/
def punctuationRows : List String :=
  Punctuation.all.map fun p =>
    let i := p.entry
    row [i.label, coded i.spelling, i.category.label, i.since.text, i.stability.label]

/-- The head of the page. -/
def front : List String :=
  ["# Cand language reference", "",
    "> Generated file. Regenerate with `cargo run -p cand_core --bin generate_lang_reference`.", "",
    "## Contents", "",
    "- [Directives](#directives)",
    "- [Special objects](#special-objects)",
    "- [Operators](#operators)",
    "- [Operations](#operations)",
    "- [Punctuation](#punctuation)", ""]

/-- A section: heading, text before the table, head of the table, rows. -/
def sectionLines (heading : String) (text header : List String) (rows : List String) :
    List String :=
  ["## " ++ heading, ""] ++ text ++ header ++ rows ++ [""]

/-- The lines of the page; the last one is empty, as the page ends with a line break. -/
def lines : List String :=
  front ++
  sectionLines "Directives" []
    ["| Id | Spelling | Category | Description | Since | Stability |",
      "|----|---|---|---|---|---|"] directiveRows ++
  sectionLines "Special objects" []
    ["| Id | Spelling | Type | Since |", "|----|---|---|---|"] specialObjectRows ++
  sectionLines "Operators" []
    ["| Id | Spelling | Category | Prefix | Binary | Postfix | Since |",
      "|----|---|---|---|---|---|---|"] operatorRows ++
  sectionLines "Operations"
    ["Higher priority binds tighter. Rows are sorted from tightest to loosest.", ""]
    ["| Name | Symbol | Priority | Associativity | Fixity | Arity |",
      "|---|---|---:|---|---|---|"] operationRows ++
  sectionLines "Punctuation" []
    ["| Id | Canonical | Category | Since | Stability |", "|---|---|---|---|---|"] punctuationRows

end ExprFront.Reference
