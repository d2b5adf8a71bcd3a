import TypeFlow.Archive
import TypeFlow.Config.Lookup
import TypeFlow.Config.Options
import TypeFlow.Flow.Graph
import TypeFlow.Report.Table
import TypeFlow.Ssa.Source

/-! Reports on the functions of a file. The functions are analysed one after the other, and the
report ends with the first that cannot be. All reports go to one writer. -/

namespace TypeFlow

/-- What to report on each function. -/
structure Mode where
  graph : Bool := false
  listing : Bool := false
  trace : Bool := false
  stats : Bool := false
  debug : Bool := false
  color : Bool := false
  /-- The only function to report on, unless empty. -/
  function : Text := []
  /-- The target that replaces the configured one, unless empty. -/
  target : Text := []
  deriving DecidableEq, Repr

/-- What was written, and the messages that were logged. -/
structure Written where
  out : Text := []
  log : List Text := []
  deriving DecidableEq, Repr

namespace Report

/-- Reports go to a writer that holds what was written before. -/
abbrev Writer := StateM Written

def write (text : Text) : Writer Unit := modify fun w => { w with out := w.out ++ text }

def log (lines : List Text) : Writer Unit := modify fun w => { w with log := w.log ++ lines }

/-- The report on a solution. -/
def body? (mode : Mode) (fn : Func) (s : Solution) : Option Text :=
  if mode.graph then s.graph? fn
  else if mode.listing then s.listing? fn
  else s.table? fn mode.color

def stats (mode : Mode) (fn : Func) (s : Solution) : Text :=
  if mode.stats then s.statsLine fn else []

/-- An analysis of at most `limit` steps. What its hook writes goes to the writer. -/
def analyze (limit : Nat) (debug : Bool) (task : Task) : Writer Outcome := do
  let outcome := task.analyze limit
  write (task.written outcome)
  log (if debug then outcome.logLines task.func.name else [])
  return outcome

/-- Reports on a function and says how its analysis failed, if it did. The hook of a trace is
installed in a copy of the options that serves for this function only. -/
def one (limit : Func → Nat) (mode : Mode) (base : Options) (fn : Func) :
    Writer (Option Failure) := do
  let options := if mode.trace then base.traced fn else base
  let outcome ← analyze (limit fn) mode.debug ⟨fn, options⟩
  match outcome.failure with
  | some failure => return some failure
  | none =>
    let solution := outcome.state.toSolution
    match body? mode fn solution with
    | none => return some .dangling
    | some body =>
      write (body ++ stats mode fn solution)
      return none

/-- Reports on functions, up to the first that fails. -/
def all (limit : Func → Nat) (mode : Mode) (base : Options) :
    List Func → Writer (Option Failure)
  | [] => return none
  | fn :: rest => do
    match ← one limit mode base fn with
    | some failure => return some failure
    | none => all limit mode base rest

def isSelected (mode : Mode) (fn : Func) : Bool :=
  mode.function.isEmpty || fn.name = mode.function

inductive Error where
  | unread (error : Files.Error)
  | source (error : Source.Error)
  | noMembers (path : Text)
  | config (error : Config.Error)
  | target (error : Target.Error)
  /-- An opcode that the target supports has no rule. -/
  | unhandled (function value : Text) (op : Opcode) (target : Text)
  | noFunction (path name : Text)
  deriving DecidableEq, Repr

/-- The text of an error; a dangling number has none. -/
def Error.message? : Error → Option Text
  | unread error => some error.message
  | source error => error.message?
  | noMembers path => some (path ++ ": archive contains no .ir files")
  | config error => some error.message
  | target error => some ("backend configuration: " ++ error.message)
  | unhandled function value op name => (Failure.unhandled function value op name).message?
  | noFunction path name => some (path ++ ": no function named " ++ name)

/-- How a report ends. -/
inductive Ending where
  | returned (error : Option Error)
  /-- The program ends on the spot. -/
  | crashed (failure : Failure)
  /-- The analysis of a function is not over within its steps, and the report goes on. -/
  | unsettled
  deriving DecidableEq, Repr

/-- Only an opcode without a rule is an error that a report returns. -/
def Ending.ofFailure : Failure → Ending
  | .unhandled function value op target => returned (some (.unhandled function value op target))
  | .unsettled => unsettled
  | failure => crashed failure

/-- The functions of a text, which is an archive of sources if its path says so. -/
def functions (path content : Text) : Except Error (List Func) :=
  if Path.extension path != ".txtar" then (Source.parse path content).mapError .source
  else do
    let sources := (Archive.members content).filter fun m => Path.extension m.name == ".ir"
    let fns ← sources.mapM fun m =>
      (Source.parse (path ++ "/" ++ m.name) m.content).mapError Error.source
    if fns.flatten.isEmpty then throw (.noMembers path)
    return fns.flatten

/-- The mode and the options for a file, by its configuration. -/
def prepare (mode : Mode) (c : Config) : Except Error (Mode × Options) := do
  let c := if mode.target.isEmpty then c else { c with target := mode.target }
  let options ← c.options.mapError .target
  return ({ mode with debug := mode.debug || c.debug }, options)

/-- Reads the functions of a file and prepares for them. -/
def open? {m : Type → Type} [Monad m] (look : Files.Look m) (home path : Text) (mode : Mode) :
    ExceptT Error m (List Func × Mode × Options) := do
  let content ← (Files.read look path).adapt .unread
  let fns ← ExceptT.mk (pure (functions path content))
  let c ← (Config.load look (Path.absolute home (Path.parent path))).adapt .config
  let prepared ← ExceptT.mk (pure (prepare mode c))
  return (fns, prepared)

/-- The reports on the selected functions, which are given as many steps as `limit` says. -/
def onFunctions (limit : Func → Nat) (path : Text) (mode : Mode) (base : Options)
    (fns : List Func) : Writer Ending := do
  let selected := fns.filter (isSelected mode)
  match ← all limit mode base selected with
  | some failure => return .ofFailure failure
  | none =>
    if selected.isEmpty && !mode.function.isEmpty then
      return .returned (some (.noFunction path mode.function))
    else return .returned none

/-- The report on a file. -/
def onFile {m : Type → Type} [Monad m] (limit : Func → Nat) (look : Files.Look m)
    (home path : Text) (mode : Mode) : StateT Written m Ending := do
  match ← StateT.lift (open? look home path mode).run with
  | .error e => return .returned (some e)
  | .ok (fns, mode, base) => modifyGet (onFunctions limit path mode base fns).run

end Report

end TypeFlow
