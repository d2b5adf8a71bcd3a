import TypeFlow.Report.OnFile
import TypeFlow.Version

/-! The command line: its arguments, and what a run writes and ends with. -/

namespace TypeFlow.Command

def program : Text := "sccpdump"

structure Arguments where
  mode : Mode := {}
  lattice : Bool := false
  version : Bool := false
  noColor : Bool := false
  paths : List Text := []
  deriving DecidableEq, Repr

/-- A flag either stands alone, with a truth value if one is given, or takes a text. -/
inductive Flag where
  | switch (set : Arguments → Bool → Arguments)
  | option (set : Arguments → Text → Arguments)

def flag? (name : Text) : Option Flag :=
  List.lookup name [
    ("debug", .switch fun a b => { a with mode := { a.mode with debug := b } }),
    ("dot", .switch fun a b => { a with mode := { a.mode with graph := b } }),
    ("func", .option fun a t => { a with mode := { a.mode with function := t } }),
    ("ir", .switch fun a b => { a with mode := { a.mode with listing := b } }),
    ("lattice", .switch fun a b => { a with lattice := b }),
    ("no-color", .switch fun a b => { a with noColor := b }),
    ("stats", .switch fun a b => { a with mode := { a.mode with stats := b } }),
    ("target", .option fun a t => { a with mode := { a.mode with target := t } }),
    ("trace", .switch fun a b => { a with mode := { a.mode with trace := b } }),
    ("version", .switch fun a b => { a with version := b })]

def usageLine (name text : Text) : Text := "  -" ++ name ++ "\n    \t" ++ text ++ "\n"

def usage : Text :=
  "Usage: " ++ program ++ " [flags] file.ir|file.txtar...\n" ++ List.flatten [
    usageLine "debug" "Log every step of the analysis",
    usageLine "dot" "Print Graphviz dot of the annotated CFG",
    usageLine "func string" "Only analyze the function with this name",
    usageLine "ir" "Print the annotated IR instead of a table",
    usageLine "lattice" "Print Graphviz dot of the TypeVal lattice and exit",
    usageLine "no-color" "Disable colored output",
    usageLine "stats" "Print statistics about the analysis",
    usageLine "target string"
      ("Override the configured backend target (" ++ Text.join ", " Target.names ++ ")"),
    usageLine "trace" "Print edges, evaluations and updates as they happen",
    usageLine "version" "Print version and exit"]

inductive Misuse where
  | badSyntax (argument : Text)
  | undefined (name : Text)
  | needsArgument (name : Text)
  | notBoolean (value name : Text)
  | help
  deriving DecidableEq, Repr

def Misuse.message : Misuse → Text
  | badSyntax argument => "bad flag syntax: " ++ argument ++ "\n"
  | undefined name => "flag provided but not defined: -" ++ name ++ "\n"
  | needsArgument name => "flag needs an argument: -" ++ name ++ "\n"
  | notBoolean value name =>
    "invalid boolean value " ++ value.quoted ++ " for -" ++ name ++ ": parse error\n"
  | help => []

def readBool? (t : Text) : Option Bool :=
  if (["1", "t", "T", "true", "TRUE", "True"] : List Text).contains t then some true
  else if (["0", "f", "F", "false", "FALSE", "False"] : List Text).contains t then some false
  else none

/-- What an argument is to the reading of flags. -/
inductive Role where
  | operand
  | stop
  | malformed
  | flag (name : Text) (value : Option Text)
  deriving DecidableEq, Repr

/-- A flag starts with one or two dashes and may have a value behind an equals sign. -/
def role (argument : Text) : Role :=
  match argument with
  | 0x2D :: c :: rest =>
    if argument = "--" then .stop
    else
      let name := if c = Text.ascii '-' then rest else c :: rest
      if name.head?.any fun c => c = Text.ascii '-' || c = Text.ascii '=' then .malformed
      else
        match Text.cut? (Text.ascii '=') name with
        | some (name, value) => .flag name (some value)
        | none => .flag name none
  | _ => .operand

/-- Reads the arguments from left to right. Flags end at the first argument that is none, or behind
two dashes. -/
def readArguments (a : Arguments) : List Text → Except Misuse Arguments
  | [] => .ok a
  | argument :: rest =>
    match role argument with
    | .operand => .ok { a with paths := argument :: rest }
    | .stop => .ok { a with paths := rest }
    | .malformed => .error (.badSyntax argument)
    | .flag name value =>
      match flag? name, value, rest with
      | none, _, _ => .error (if name = "help" || name = "h" then .help else .undefined name)
      | some (.switch set), none, rest => readArguments (set a true) rest
      | some (.switch set), some value, rest =>
        match readBool? value with
        | some b => readArguments (set a b) rest
        | none => .error (.notBoolean value name)
      | some (.option set), some value, rest => readArguments (set a value) rest
      | some (.option set), none, value :: rest => readArguments (set a value) rest
      | some (.option _), none, [] => .error (.needsArgument name)

/-- What a run writes and the status it ends with, if it ends. -/
structure Result where
  status : Option Nat := some 0
  out : Text := []
  err : Text := []
  deriving DecidableEq, Repr

/-- A logged message: it names the program and ends its line. -/
def logged (message : Text) : Text :=
  let line := program ++ ": " ++ message
  if message.getLast? = some (Text.ascii '\n') then line else line ++ "\n"

def hint : Text := "\nthe analysis needs a transfer rule for every opcode the backend supports"

/-- How a run ends on the spot: of its report only the first line is kept. -/
def crashed (message : Text) : Nat × Text :=
  (2, "panic: " ++ message.takeWhile (· != Text.ascii '\n') ++ "\n")

/-- How a run ends by an error in the report on a file. -/
def failed (path : Text) (error : Report.Error) : Nat × Text :=
  let message := error.message?.getD []
  match error with
  | .unhandled .. => (1, logged (path ++ ": " ++ message ++ hint))
  | .config e => if e.isCrash then crashed message else (1, logged message)
  | _ => (1, logged message)

/-- Reports on files in order, up to the first error. -/
def onFiles {m : Type → Type} [Monad m] (look : Files.Look m) (home : Text) (mode : Mode) :
    List Text → m Result
  | [] => return {}
  | path :: rest => do
    let (ending, written) ← (Report.onFile Func.limit look home path mode).run {}
    let log := (written.log.map logged).flatten
    let ended := fun (status, text) =>
      ({ status := some status, out := written.out, err := log ++ text } : Result)
    match ending with
    | .returned (some error) => return ended (failed path error)
    | .crashed failure => return ended (crashed (failure.message?.getD []))
    | .unsettled => return { status := none, out := written.out, err := log }
    | .returned none =>
      let more ← onFiles look home mode rest
      return { more with out := written.out ++ more.out, err := log ++ more.err }

def latticeGraph : Text :=
  match Fact.lattice.draw Fact.text Fact.states with
  | .ok t => t
  | .error fault => fault.message Fact.text

/-- A run of the program on its arguments. Colours are used where they are wanted. -/
def run {m : Type → Type} [Monad m] (look : Files.Look m) (home : Text) (color : Bool)
    (arguments : List Text) : m Result :=
  match readArguments {} arguments with
  | .error .help => return { err := usage }
  | .error misuse => return { status := some 2, err := misuse.message ++ usage }
  | .ok a =>
    if a.version then return { out := Version.line program }
    else if a.lattice then return { out := latticeGraph }
    else if a.paths.isEmpty then return { status := some 2, err := usage }
    else onFiles look home { a.mode with color := color && !a.noColor } a.paths

end TypeFlow.Command
