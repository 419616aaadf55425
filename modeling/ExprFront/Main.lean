import ExprFront.CommandLine.Run

/-!
# The command-line program

Reads the arguments and the named file, runs the command, and prints.
-/

namespace ExprFront.CommandLine

/-- What the system says of a file that it does not open. -/
def systemReason (e : IO.Error) : String :=
  match e with
  | .noFileOrDirectory _ code _ =>
      "No such file or directory (os error " ++ toString code ++ ")"
  | .permissionDenied _ code _ => "Permission denied (os error " ++ toString code ++ ")"
  | .inappropriateType _ code _ => "Is a directory (os error " ++ toString code ++ ")"
  | e => toString e

/-- What is found under the name of a file. -/
def lookAt (path : String) : IO FileState := do
  try
    let bytes ← IO.FS.readBinFile path
    return .content bytes.size (String.fromUTF8? bytes)
  catch e =>
    match e with
    | .inappropriateType .. => return .unreadable (systemReason e)
    | e => return .inaccessible (systemReason e)

/-- How the program is used. -/
def usage : String :=
  "Usage: cand [OPTIONS] <COMMAND>\n\nCommands:\n" ++
    "  lex <FILE>           Print the sanitized token stream\n" ++
    "  parse <FILE>         Parse every value statement and print its s-expression\n" ++
    "  parenthesize <FILE>  Print the fully parenthesized form of every value statement\n" ++
    "  scopes <FILE>        Print statement boundaries and every bracket scope\n" ++
    "  expr <CODE>          Parse one inline expression and print its s-expression\n\n" ++
    "Options:\n" ++
    "  --normalize <NORMALIZE>  never, always or auto\n" ++
    "  --max-depth <N>          Maximum nesting depth\n" ++
    "  --no-simplify            Keep wrapper nodes in the output\n" ++
    "  -h, --help               Print help\n" ++
    "  -V, --version            Print version\n"

/-- A diagnostic with the name of its source. -/
def render (name : String) (d : Diagnostic) : String :=
  let help := match d.help with
    | some text => "\n  help: " ++ text
    | none => ""
  d.code ++ "\n\n  " ++ d.message ++ "\n  in " ++ name ++ help

/-- The files that the arguments name. -/
def namedFile (args : List String) : IO (String → FileState) := do
  match read args with
  | .ok i =>
      if i.command.readsFile then
        let state ← lookAt i.operand
        return fun _ => state
      else return fun _ => .inaccessible ""
  | .error _ => return fun _ => .inaccessible ""

end ExprFront.CommandLine

open ExprFront.CommandLine in
/-- Runs the program. -/
def main (args : List String) : IO UInt32 := do
  let files ← namedFile args
  let result := run args files
  match result with
  | .ok text => IO.print text
  | .error (.plain message) => IO.eprintln message
  | .error (.inSource name e) => IO.eprintln (render name e.diagnostic)
  | .error (.usage .help) => IO.print usage
  | .error (.usage _) => IO.eprint usage
  return UInt32.ofNat (exitCode result)
