import ExprFront.Vocabulary.Release

/-!
# Directives

Directives are the keywords, written with a leading `#`, that open
declarations and control-flow statements. The set is closed.
-/

namespace ExprFront

/-- A broad grouping of the directives. -/
inductive DirectiveCategory where
  | program
  | preprocessor
  | declaration
  | controlFlow
  | namespaces
  | output
deriving DecidableEq

/-- The name under which a category is listed. -/
def DirectiveCategory.label : DirectiveCategory → String
  | .program => "Program"
  | .preprocessor => "Preprocessor"
  | .declaration => "Declaration"
  | .controlFlow => "ControlFlow"
  | .namespaces => "Namespace"
  | .output => "Io"

/-- The directives of the language. -/
inductive Directive where
  | enter
  | start
  | includeFile
  | macroDef
  | endMacro
  | varDecl
  | constDecl
  | typeAlias
  | funcDecl
  | classDecl
  | ifThen
  | elseIf
  | otherwise
  | whileLoop
  | forLoop
  | returnValue
  | breakLoop
  | continueLoop
  | printValue
  | namespaceBlock
  | useNames
deriving DecidableEq

/-- What is fixed about a directive. -/
structure DirectiveEntry where
  /-- The name under which the directive is listed. -/
  label : String
  /-- The keyword without its leading mark. -/
  spelling : String
  category : DirectiveCategory
  description : String
  since : Release
  stability : Stability

namespace Directive

/-- The table of directives. -/
def entry : Directive → DirectiveEntry
  | enter => ⟨"Enter", "enter", .program, "Program entry block.", .first, .stable⟩
  | start => ⟨"Start", "start", .program, "Start of the main program body.", .first, .stable⟩
  | includeFile =>
      ⟨"Include", "include", .preprocessor, "Splice another source file.", .first, .stable⟩
  | macroDef =>
      ⟨"Macro", "macro", .preprocessor, "Begin a token-substitution macro.", .first, .stable⟩
  | endMacro => ⟨"Enddef", "enddef", .preprocessor, "End a macro definition.", .first, .stable⟩
  | varDecl => ⟨"Var", "var", .declaration, "Declare a variable.", .first, .stable⟩
  | constDecl => ⟨"Const", "const", .declaration, "Declare a constant.", .first, .stable⟩
  | typeAlias => ⟨"Type", "type", .declaration, "Declare a type alias.", .first, .stable⟩
  | funcDecl => ⟨"Func", "func", .declaration, "Declare a function.", .first, .stable⟩
  | classDecl => ⟨"Class", "class", .declaration, "Declare a class.", .first, .stable⟩
  | ifThen => ⟨"If", "if", .controlFlow, "Conditional branch.", .first, .stable⟩
  | elseIf => ⟨"Elif", "elif", .controlFlow, "Chained conditional branch.", .first, .stable⟩
  | otherwise => ⟨"Else", "else", .controlFlow, "Fallback branch.", .first, .stable⟩
  | whileLoop => ⟨"While", "while", .controlFlow, "Pre-tested loop.", .first, .stable⟩
  | forLoop =>
      ⟨"For", "for", .controlFlow, "Counted loop with init/condition/step.", .first, .stable⟩
  | returnValue => ⟨"Return", "return", .controlFlow, "Return from a function.", .first, .stable⟩
  | breakLoop => ⟨"Break", "break", .controlFlow, "Leave the innermost loop.", .first, .stable⟩
  | continueLoop =>
      ⟨"Continue", "continue", .controlFlow, "Skip to the next loop iteration.", .first, .stable⟩
  | printValue => ⟨"Print", "print", .output, "Print a value.", .first, .stable⟩
  | namespaceBlock =>
      ⟨"Namespace", "namespace", .namespaces, "Open a named scope.", .first, .stable⟩
  | useNames =>
      ⟨"Use", "use", .namespaces, "Bring names from a namespace into scope.", .first, .stable⟩

/-- All directives, in the order of the table. -/
def all : List Directive :=
  [enter, start, includeFile, macroDef, endMacro, varDecl, constDecl, typeAlias, funcDecl,
    classDecl, ifThen, elseIf, otherwise, whileLoop, forLoop, returnValue, breakLoop, continueLoop,
    printValue, namespaceBlock, useNames]

/-- No directive is missing from the list. -/
theorem mem_all (d : Directive) : d ∈ all := by
  cases d <;> decide

/-- The keyword without its leading mark. -/
def spelling (d : Directive) : String := d.entry.spelling

/-- The directive whose keyword is written exactly so. -/
def ofSpelling? (text : String) : Option Directive :=
  all.find? fun d => d.spelling == text

/-- The keyword with its leading mark. -/
def marked (d : Directive) : String := "#" ++ d.spelling

end Directive

end ExprFront
