import ExprFront.Config
import ExprFront.Decimal.Integer

/-!
# Command-line arguments

A command line has two levels: what stands before the name of the command and
what follows it. Options may be given on either level, once each; on both, the
inner one counts. An option may have its value attached after an equals sign or
as the next argument. A value that is an argument of its own is judged when the
next option or operand arrives, or at the end of its level; the inner level is
judged before what is still open on the outer one.
-/

namespace ExprFront.CommandLine

/-- What the program is asked to do. -/
inductive Command where
  | lex
  | parse
  | parenthesize
  | scopes
  | expr
deriving DecidableEq

namespace Command

/-- The name of the command. -/
def name : Command → String
  | lex => "lex"
  | parse => "parse"
  | parenthesize => "parenthesize"
  | scopes => "scopes"
  | expr => "expr"

/-- All commands. -/
def all : List Command := [lex, parse, parenthesize, scopes, expr]

/-- The command of a name. -/
def ofName? (text : String) : Option Command := all.find? fun c => c.name == text

/-- Whether the operand is the name of a file. -/
def readsFile : Command → Bool
  | expr => false
  | _ => true

end Command

/-- Why arguments do not lead to the run of a command. -/
inductive Refusal where
  | help
  | version
  /-- There are no arguments that say anything. -/
  | nothingAsked
  | missingCommand
  | unknownCommand
  | missingOperand
  | unknownArgument
  /-- The value is missing or not among the choices. -/
  | invalidValue
  /-- The value is not a number of the right size. -/
  | malformedNumber
  | givenTwice
  /-- A value is attached to an option that takes none. -/
  | surplusValue
deriving DecidableEq

/-- What is asked: a command, its operand and the choices for reading expressions. -/
structure Invocation where
  command : Command
  operand : String
  config : Config
deriving DecidableEq

/-- An argument that takes a value. -/
inductive Slot where
  | normalize
  | maxDepth
  | operand
deriving DecidableEq

/-- What has been read on one level. -/
structure Level where
  /-- The command whose arguments these are, none on the outer level. -/
  command : Option Command
  normalization : Option Normalization := none
  limit : Option Nat := none
  keepsWrappers : Bool := false
  operand : Option String := none
  /-- An argument whose value has not been judged or not even been seen. -/
  pending : Option (Slot × Option String) := none
deriving DecidableEq

/-- The normalization of a name. -/
def normalizationOfName? : String → Option Normalization
  | "never" => some .never
  | "always" => some .always
  | "auto" => some .auto
  | _ => none

namespace Level

/-- Whether the next plain argument is the value of an option. -/
def awaitsValue (l : Level) : Bool :=
  match l.pending with
  | some (_, none) => true
  | _ => false

/-- Whether the operand has been seen. -/
def hasOperand (l : Level) : Bool :=
  l.operand.isSome || l.pending.any (·.1 == .operand)

/-- Whether any option has been given. -/
def isBare (l : Level) : Bool :=
  l.normalization.isNone && l.limit.isNone && !l.keepsWrappers

/-- A value is judged and kept. -/
def keep (l : Level) (slot : Slot) (value : String) : Except Refusal Level :=
  match slot with
  | .normalize =>
      if l.normalization.isSome then .error .givenTwice
      else match normalizationOfName? value with
        | some n => .ok { l with normalization := some n }
        | none => .error .invalidValue
  | .maxDepth =>
      if l.limit.isSome then .error .givenTwice
      else match Decimal.readUnsigned? Decimal.maxUnsigned value.toList with
        | some n => .ok { l with limit := some n }
        | none => .error .malformedNumber
  | .operand =>
      if value.isEmpty && l.command.any Command.readsFile then .error .invalidValue
      else .ok { l with operand := some value }

/-- The pending value is judged. -/
def settle (l : Level) : Except Refusal Level :=
  match l.pending with
  | none => .ok l
  | some (_, none) => .error .invalidValue
  | some (slot, some value) => { l with pending := none }.keep slot value

/-- The value that a pending option was waiting for. -/
def supply (l : Level) (value : String) : Level :=
  { l with pending := l.pending.map fun (slot, _) => (slot, some value) }

/-- An option that takes a value. -/
def option (l : Level) (slot : Slot) (attached : Option String) : Except Refusal Level := do
  let l ← l.settle
  match attached with
  | some value => l.keep slot value
  | none => return { l with pending := some (slot, none) }

/-- An option that takes no value, acting on the level. -/
def flag (l : Level) (attached : Option String) (act : Level → Except Refusal Level) :
    Except Refusal Level :=
  if attached.isSome then .error .surplusValue
  else do
    let l ← l.settle
    act l

/-- The wish to keep wrapper nodes, which may be given once. -/
def keepWrappers (l : Level) : Except Refusal Level :=
  if l.keepsWrappers then .error .givenTwice else .ok { l with keepsWrappers := true }

/-- An option by its long name. Only the outer level knows the version. -/
def longOption (l : Level) (name : String) (attached : Option String) : Except Refusal Level :=
  match name with
  | "normalize" => l.option .normalize attached
  | "max-depth" => l.option .maxDepth attached
  | "no-simplify" => l.flag attached keepWrappers
  | "help" => l.flag attached fun _ => .error .help
  | "version" =>
      if l.command.isNone then l.flag attached fun _ => .error .version
      else .error .unknownArgument
  | _ => .error .unknownArgument

/-- Options by their short names, of which the first one decides. -/
def shortOptions (l : Level) (names : List Char) : Except Refusal Level :=
  match names with
  | 'h' :: _ => l.flag none fun _ => .error .help
  | 'V' :: _ =>
      if l.command.isNone then l.flag none fun _ => .error .version
      else .error .unknownArgument
  | _ => .error .unknownArgument

end Level

/-- What an argument looks like. -/
inductive Shape where
  /-- The mark after which nothing is an option. -/
  | separator
  | long (name : String) (attached : Option String)
  | short (names : List Char)
  | plain
deriving DecidableEq

/-- A text up to the first equals sign and the text after it. -/
def splitAttached (text : List Char) : String × Option String :=
  let name := String.ofList (text.takeWhile (· != '='))
  match text.dropWhile (· != '=') with
  | [] => (name, none)
  | _ :: value => (name, some (String.ofList value))

/-- The shape of an argument. A single dash is a plain argument. -/
def Shape.of (arg : String) : Shape :=
  match arg.toList with
  | ['-', '-'] => .separator
  | '-' :: '-' :: rest =>
      let (name, attached) := splitAttached rest
      .long name attached
  | '-' :: c :: rest => .short (c :: rest)
  | _ => .plain

/-- The arguments after the name of a command. -/
def readInner : (onlyOperands : Bool) → List String → Level → Except Refusal Level
  | _, [], l => do
      let l ← l.settle
      if l.operand.isSome then return l else .error .missingOperand
  | onlyOperands, arg :: rest, l =>
      let operand : Except Refusal Level :=
        if l.hasOperand then .error .unknownArgument
        else do
          let l ← l.settle
          return { l with pending := some (.operand, some arg) }
      if onlyOperands then do
        let l ← operand
        readInner true rest l
      else match Shape.of arg with
        | .separator => readInner true rest l
        | .long name attached => do
            let l ← l.longOption name attached
            readInner false rest l
        | .short names => do
            let l ← l.shortOptions names
            readInner false rest l
        | .plain =>
            if l.awaitsValue then readInner false rest (l.supply arg)
            else do
              let l ← operand
              readInner false rest l

/-- What both levels ask for together. -/
def combine (outer inner : Level) (command : Command) : Invocation where
  command := command
  operand := inner.operand.getD ""
  config :=
    { limit := (inner.limit.or outer.limit).getD Config.standard.limit
      normalization :=
        (inner.normalization.or outer.normalization).getD Config.standard.normalization
      simplify := !(inner.keepsWrappers || outer.keepsWrappers) }

/-- The command `help` shows the help of the command that is named, or of the whole program. -/
def helpOn : List String → Refusal
  | [] => .help
  | [name] => if name == "help" || (Command.ofName? name).isSome then .help else .unknownCommand
  | _ => .unknownCommand

/-- Arguments that end without a command. -/
def endOuter (l : Level) : Refusal :=
  match l.settle with
  | .error refusal => refusal
  | .ok l => if l.isBare then .nothingAsked else .missingCommand

/-- The arguments from the first one on. -/
def readOuter : List String → Level → Except Refusal Invocation
  | [], l => .error (endOuter l)
  | arg :: rest, l =>
      match if l.awaitsValue then none else Command.ofName? arg with
      | some command => do
          let inner ← readInner false rest { command := some command }
          let outer ← l.settle
          return combine outer inner command
      | none =>
          if !l.awaitsValue && arg == "help" then .error (helpOn rest)
          else match Shape.of arg with
            | .separator =>
                match rest with
                | [] => .error (endOuter l)
                | next :: _ =>
                    if next == "help" || (Command.ofName? next).isSome then .error .unknownArgument
                    else .error .unknownCommand
            | .long name attached => do
                let l ← l.longOption name attached
                readOuter rest l
            | .short names => do
                let l ← l.shortOptions names
                readOuter rest l
            | .plain =>
                if l.awaitsValue then readOuter rest (l.supply arg)
                else .error .unknownCommand

/-- What the arguments of a command line ask for. -/
def read (args : List String) : Except Refusal Invocation :=
  readOuter args { command := none }

end ExprFront.CommandLine
