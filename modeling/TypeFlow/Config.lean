import TypeFlow.Text

/-! Configurations. A layer holds the settings of one file and says which of them the file defines.
Layers are merged from the outermost to the innermost: a defined setting replaces the one below it,
and a list may take over the list below it where it says `inherit`. -/

namespace TypeFlow

structure Config where
  target : Text := []
  enabled : List Text := []
  disabled : List Text := []
  branchSuccessors : Bool := false
  checkMonotonic : Bool := false
  debug : Bool := false
  deriving DecidableEq, Repr

namespace Config

inductive Setting where
  | target
  | enabled
  | disabled
  | branchSuccessors
  | checkMonotonic
  | debug
  deriving DecidableEq, Repr

structure Layer where
  values : Config := {}
  defined : List Setting := []
  deriving DecidableEq, Repr

/-- The configuration where there are no files. -/
def standard : Config where
  target := "baseline"
  branchSuccessors := true
  checkMonotonic := true

/-- Why layers make up no configuration. -/
inductive Fault where
  | noLayers
  | unresolved
  deriving DecidableEq, Repr

def Fault.message : Fault → Text
  | noLayers => "trying to merge zero configs"
  | unresolved => "unresolved \"inherit\""

/-- A list with the list below it in every place that says `inherit`. -/
def mergeLists (below list : List Text) : List Text :=
  list.flatMap fun (e : Text) => if e = "inherit" then below else [e]

/-- Leaves out what equals the element behind it. -/
def dropRepeats : List Text → List Text
  | a :: b :: rest => if a = b then dropRepeats (b :: rest) else a :: dropRepeats (b :: rest)
  | l => l

/-- A list in ascending order and without repeats. One that has `all` is `all` alone, and none may
have kept an `inherit`, unless `all` comes first. -/
def normalList (list : List Text) : Except Fault (List Text) :=
  let sorted := dropRepeats (list.mergeSort Text.le)
  match sorted.find? fun (e : Text) => e = "inherit" || e = "all" with
  | none => .ok sorted
  | some e => if e = "all" then .ok ["all"] else .error .unresolved

def normal (c : Config) : Except Fault Config := do
  let enabled ← normalList c.enabled
  let disabled ← normalList c.disabled
  return { c with enabled, disabled }

/-- Puts the settings that a layer defines over a configuration. -/
def merge (c : Config) (layer : Layer) : Config :=
  let pick {α : Type} (s : Setting) (below above : α) : α :=
    if layer.defined.contains s then above else below
  let v := layer.values
  { target := pick .target c.target v.target
    enabled := pick .enabled c.enabled (mergeLists c.enabled v.enabled)
    disabled := pick .disabled c.disabled (mergeLists c.disabled v.disabled)
    branchSuccessors := pick .branchSuccessors c.branchSuccessors v.branchSuccessors
    checkMonotonic := pick .checkMonotonic c.checkMonotonic v.checkMonotonic
    debug := pick .debug c.debug v.debug }

/-- Merges layers, of which the first is taken as it is. -/
def mergeAll : List Layer → Except Fault Config
  | [] => .error .noLayers
  | base :: rest => (rest.foldl merge base.values).normal

end Config

end TypeFlow
