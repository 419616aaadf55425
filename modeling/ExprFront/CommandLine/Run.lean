import ExprFront.CommandLine.Arguments
import ExprFront.Report
import ExprFront.Text.Blank

/-!
# Runs of the program

A run takes its arguments and what the files hold, and yields an exit code and
the texts for both output streams. It does no input or output itself.
-/

namespace ExprFront.CommandLine

/-- What is found under the name of a file. -/
inductive FileState where
  /-- The file cannot be found or may not be looked at. -/
  | inaccessible (reason : String)
  /-- The file is there but cannot be read. -/
  | unreadable (reason : String)
  /-- A file of so many bytes; there is no text if the bytes are no UTF-8. -/
  | content (size : Nat) (text : Option String)

/-- The largest file that is read, in bytes. -/
def fileSizeLimit : Nat := 100 * 1024 * 1024

/-- Why a source file is not read. -/
inductive FileError where
  | access (path reason : String)
  | tooLarge (path : String) (size : Nat)
  | reading (path reason : String)
deriving DecidableEq

/-- The error in words. -/
def FileError.message : FileError → String
  | access path reason => "Cannot access file '" ++ path ++ "': " ++ reason
  | tooLarge path size =>
      "Source file '" ++ path ++ "' is too large (" ++ toString size ++ " bytes, max " ++
        toString fileSizeLimit ++ " bytes)"
  | reading path reason => "Error reading file '" ++ path ++ "': " ++ reason

/-- The text of a source file. -/
def fileText (path : String) : FileState → Except FileError String
  | .inaccessible reason => .error (.access path reason)
  | .unreadable reason => .error (.reading path reason)
  | .content size text =>
      if fileSizeLimit < size then .error (.tooLarge path size)
      else match text with
        | some source => .ok source
        | none => .error (.reading path "stream did not contain valid UTF-8")

/-- Why a run fails. -/
inductive RunError where
  /-- A message that is complete by itself. -/
  | plain (message : String)
  /-- An error in a source, which is shown with its place in it. -/
  | inSource (name : String) (e : ParseError)
  /-- The arguments make no command. -/
  | usage (r : Refusal)

/-- The result of a run: the text for standard output or a failure. -/
abbrev Result := Except RunError String

/-- The name and number of the release of the program. -/
def versionText : String := "cand 0.1.0-alpha.1\n"

/-- Whether a text has nothing but blanks. -/
def isBlankText (text : String) : Bool := text.toList.all Text.isBlank

/-- The report that a command makes of a source. -/
def report (command : Command) (config : Config) (source : String) : Except ParseError String :=
  match command with
  | .lex => Report.tokenLines source
  | .parse => Report.treeLines source config
  | .parenthesize => Report.groupedLines source config
  | .scopes => Report.scopeLines source
  | .expr => Report.expressionLine source config

/-- The report of a source under a name. -/
def reportOn (i : Invocation) (name source : String) : Result :=
  match report i.command i.config source with
  | .ok text => .ok text
  | .error e => .error (.inSource name e)

/-- A command is carried out. -/
def execute (i : Invocation) (file : String → FileState) : Result :=
  if i.command.readsFile then
    match fileText i.operand (file i.operand) with
    | .ok source => reportOn i i.operand source
    | .error e => .error (.plain e.message)
  else if isBlankText i.operand then
    .error (.plain "Error: expr requires an expression string")
  else reportOn i "<expr>" i.operand

/-- A run with the given arguments. -/
def run (args : List String) (file : String → FileState) : Result :=
  match read args with
  | .ok i => execute i file
  | .error .version => .ok versionText
  | .error r => .error (.usage r)

/-- The exit code of a run. -/
def exitCode : Result → Nat
  | .ok _ => 0
  | .error (.plain _) => 1
  | .error (.inSource _ _) => 1
  | .error (.usage .help) => 0
  | .error (.usage _) => 2

end ExprFront.CommandLine
