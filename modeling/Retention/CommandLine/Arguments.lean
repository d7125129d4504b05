import Retention.ObjectId.Literal

namespace Retention.CommandLine

/-- Why a command line is not run. -/
inductive ArgumentError where
  | missingRequiredArgument
  | unknownArgument
  | tooManyValues
  | invalidValue
  | valueValidation
  | argumentConflict
  | invalidSubcommand
  | displayHelp
  | displayVersion
  deriving DecidableEq

inductive ExportFormat where
  | csv
  | parquet
  deriving DecidableEq

namespace ExportFormat

def name : ExportFormat → String
  | csv => "csv"
  | parquet => "parquet"

def ofName? (text : String) : Option ExportFormat := [csv, parquet].find? (·.name == text)

end ExportFormat

/-- What to do with the record streams. -/
inductive Command where
  | summary
  | dominator (id : ObjectId)
  | path (id : ObjectId)
  | children (id : ObjectId)
  | retained (id : ObjectId)
  | exportTo (output : String) (format : ExportFormat)
  | depth (output : String)
  | compare
  deriving DecidableEq

structure Arguments where
  paths : List String
  top : Nat
  command : Option Command
  deriving DecidableEq

/-- What the values of an argument are for. -/
inductive Slot where
  | paths
  | top
  | id
  | output
  | format
  deriving DecidableEq

/-- The values that have been checked. -/
structure Values where
  paths : List String
  top : Option Nat
  id : Option ObjectId
  output : Option String
  format : Option ExportFormat
  deriving DecidableEq

namespace Values

def none : Values := ⟨[], .none, .none, .none, .none⟩

/-- The only value of an argument that is given once. -/
def single (given : Bool) (raw : List String) : Except ArgumentError String :=
  match raw with
  | [] => .error .invalidValue
  | [text] => if given then .error .argumentConflict else .ok text
  | _ => .error .tooManyValues

def check {α : Type} (fault : ArgumentError) : Option α → Except ArgumentError α
  | some a => .ok a
  | .none => .error fault

/-- Checks the values given in one place; up to two paths stand next to each other. -/
def store (v : Values) (slot : Slot) (raw : List String) : Except ArgumentError Values :=
  match slot with
  | .paths =>
    if raw.isEmpty then .error .invalidValue
    else if 2 < raw.length then .error .tooManyValues
    else .ok { v with paths := v.paths ++ raw }
  | .top => do
    let text ← single v.top.isSome raw
    let top ← check .valueValidation (Number.read 10 text.toList).toOption
    pure { v with top := some top }
  | .id => do
    let text ← single v.id.isSome raw
    let id ← check .valueValidation (ObjectId.parse text).toOption
    pure { v with id := some id }
  | .output => do
    let text ← single v.output.isSome raw
    pure { v with output := some text }
  | .format => do
    let text ← single v.format.isSome raw
    let format ← check .invalidValue (ExportFormat.ofName? text)
    pure { v with format := some format }

end Values

/-- The parts of a command line, each with arguments of its own. -/
inductive Level where
  | line
  | bare
  | object
  | table
  | depth
  deriving DecidableEq

/-- What an option stands for. -/
inductive Flag where
  | takes (slot : Slot)
  | help
  | version
  deriving DecidableEq

namespace Level

/-- The options of a level: letter, word and meaning. -/
def options : Level → List (Char × String × Flag)
  | line => [('t', "top", .takes .top), ('h', "help", .help), ('V', "version", .version)]
  | bare => [('h', "help", .help)]
  | object => [('h', "help", .help)]
  | table => [('o', "output", .takes .output), ('f', "format", .takes .format), ('h', "help", .help)]
  | depth => [('o', "output", .takes .output), ('h', "help", .help)]

def byLetter (level : Level) (c : Char) : Option Flag :=
  (level.options.find? (·.1 == c)).map (·.2.2)

def byWord (level : Level) (word : String) : Option Flag :=
  (level.options.find? (·.2.1 == word)).map (·.2.2)

/-- Where arguments that are no options go. -/
def positional : Level → Option Slot
  | line => some .paths
  | object => some .id
  | _ => none

end Level

/-- The level at which each command's own arguments are read. -/
def commandLevels : List (String × Level) :=
  [("summary", .bare), ("dominator", .object), ("path", .object), ("children", .object),
    ("retained", .object), ("export", .table), ("depth", .depth), ("compare", .bare)]

def helpCommand : String := "help"

/-- Help is given on one command at most, help itself included. -/
def helpOn : List String → ArgumentError
  | [] => .displayHelp
  | [name] =>
    if name = helpCommand ∨ (commandLevels.lookup name).isSome then .displayHelp else .invalidSubcommand
  | _ => .invalidSubcommand

/-- A level half read. -/
structure Scan where
  values : Values
  /-- Values given but not yet checked. -/
  pending : Option (Slot × List String)
  /-- An option still wants its value. -/
  awaiting : Bool
  /-- The only positional argument has been given. -/
  filled : Bool
  /-- Options are no longer recognised. -/
  trailing : Bool

namespace Scan

def start : Scan := ⟨.none, none, false, false, false⟩

/-- Checks the pending values. -/
def settle (s : Scan) : Except ArgumentError Scan :=
  match s.pending with
  | none => .ok s
  | some (slot, raw) => (s.values.store slot raw).map fun values => { s with values := values, pending := none }

/-- An argument that is no option. -/
def positional (level : Level) (s : Scan) (arg : String) : Except ArgumentError Scan :=
  match level.positional with
  | none => .error .unknownArgument
  | some .paths =>
    match s.pending with
    | some (.paths, raw) => .ok { s with pending := some (.paths, raw ++ [arg]), awaiting := false }
    | _ => s.settle.map fun s => { s with pending := some (.paths, [arg]), awaiting := false }
  | some slot =>
    if s.filled then .error .unknownArgument
    else s.settle.map fun s => { s with pending := some (slot, [arg]), awaiting := false, filled := true }

/-- A recognised option, with the value attached to it if there is one. -/
def option (s : Scan) (flag : Flag) (attached : Option String) : Except ArgumentError Scan :=
  match flag, attached with
  | .takes slot, some text => do
    let s ← s.settle
    let values ← s.values.store slot [text]
    pure { s with values := values, awaiting := false }
  | .takes slot, none => s.settle.map fun s => { s with pending := some (slot, []), awaiting := true }
  | .help, _ => s.settle.bind fun _ => .error .displayHelp
  | .version, _ => s.settle.bind fun _ => .error .displayVersion

/-- An option by its word; a value may follow an equals sign, but only options with values take one. -/
def wordOption (level : Level) (s : Scan) (body : List Char) : Except ArgumentError Scan :=
  let word := String.ofList (body.takeWhile (· != '='))
  let attached := match body.dropWhile (· != '=') with
    | [] => none
    | _ :: value => some (String.ofList value)
  match level.byWord word, attached with
  | none, _ => .error .unknownArgument
  | some (.takes slot), _ => s.option (.takes slot) attached
  | some _, some _ => .error .tooManyValues
  | some flag, none => s.option flag none

/-- An option by its letter; what follows the letter is its value, less one equals sign. -/
def letterOption (level : Level) (s : Scan) (letter : Char) (rest : List Char) : Except ArgumentError Scan :=
  match level.byLetter letter with
  | none => .error .unknownArgument
  | some flag =>
    match rest with
    | [] => s.option flag none
    | '=' :: value => s.option flag (some (String.ofList value))
    | value => s.option flag (some (String.ofList value))

/-- One argument in front of a double dash. -/
def argument (level : Level) (s : Scan) (arg : String) : Except ArgumentError Scan :=
  match arg.toList with
  | ['-', '-'] => .ok { s with trailing := true }
  | '-' :: '-' :: body => s.wordOption level body
  | '-' :: letter :: rest => s.letterOption level letter rest
  | _ =>
    match s.awaiting, s.pending with
    | true, some (slot, raw) => .ok { s with pending := some (slot, raw ++ [arg]), awaiting := false }
    | _, _ => s.positional level arg

/-- Reads the arguments of a command. -/
def command (level : Level) (s : Scan) : List String → Except ArgumentError Scan
  | [] => s.settle
  | arg :: rest => do
    let s ← if s.trailing then s.positional level arg else s.argument level arg
    s.command level rest

/-- Reads the arguments in front of a command, and gives the command's name and arguments. -/
def line (s : Scan) : List String → Except ArgumentError (Scan × Option (String × List String))
  | [] => .ok (s, none)
  | arg :: rest =>
    if s.trailing then do
      let s ← s.positional .line arg
      s.line rest
    else if arg = helpCommand then .error (helpOn rest)
    else if (commandLevels.lookup arg).isSome then .ok (s, some (arg, rest))
    else do
      let s ← s.argument .line arg
      s.line rest

end Scan

def required {α : Type} : Option α → Except ArgumentError α := Values.check .missingRequiredArgument

/-- Reads a command by its name. -/
def readCommand (name : String) (args : List String) : Except ArgumentError Command := do
  let level ← Values.check .invalidSubcommand (commandLevels.lookup name)
  let s ← Scan.start.command level args
  match name with
  | "summary" => pure .summary
  | "dominator" => (required s.values.id).map .dominator
  | "path" => (required s.values.id).map .path
  | "children" => (required s.values.id).map .children
  | "retained" => (required s.values.id).map .retained
  | "export" =>
    (required s.values.output).map fun output => .exportTo output (s.values.format.getD .csv)
  | "depth" => (required s.values.output).map .depth
  | _ => pure .compare

def defaultTop : Nat := 10

def parse (args : List String) : Except ArgumentError Arguments := do
  let (s, found) ← Scan.start.line args
  let command ← match found with
    | none => pure none
    | some (name, rest) => (readCommand name rest).map some
  let s ← s.settle
  if s.values.paths.isEmpty then throw .missingRequiredArgument
  else pure ⟨s.values.paths, s.values.top.getD defaultTop, command⟩

end Retention.CommandLine
