import TypeFlow.IntSet
import TypeFlow.Ssa.Opcode
import TypeFlow.Text.Quoted

/-! Code generation targets: named sets of the opcodes that have native code. -/

namespace TypeFlow

structure Target where
  name : Text
  /-- The codes of the supported opcodes. -/
  codes : IntSet
  deriving DecidableEq, Repr

namespace Target

def new (name : Text) (ops : List Opcode) : Target :=
  ⟨name, IntSet.ofList (ops.map fun op => op.code.toNat)⟩

def supports (t : Target) (op : Opcode) : Bool := t.codes.contains op.code.toNat

/-- The supported opcodes in ascending order of their codes. -/
def ops (t : Target) : List Opcode := t.codes.elems.map fun c => Opcode.ofCode c.toNat.toUInt8

def enable (t : Target) (op : Opcode) : Target := { t with codes := t.codes.insert op.code.toNat }

def disable (t : Target) (op : Opcode) : Target := { t with codes := t.codes.erase op.code.toNat }

/-- Every valid opcode but `phi`. -/
def allOps : List Opcode := Opcode.all.filter (· != .phi)

/-- What the baseline code generator lowers directly. Conditional branches, type tests, calls,
arguments and integer division take slow paths. -/
def baselineOps : List Opcode :=
  allOps.filter fun
    | .arg | .call | .divI32 | .br | .isType => false
    | _ => true

def builtin : List Target := [new "baseline" baselineOps, new "full" allOps, new "none" []]

/-- The names of the built-in targets, in order. -/
def names : List Text := builtin.map (·.name)

inductive Error where
  | unknownTarget (name : Text)
  | unknownEnabled (opcode : Text)
  | unknownDisabled (opcode : Text)
  deriving DecidableEq, Repr

def Error.message : Error → Text
  | unknownTarget name => "unknown backend target " ++ name.quoted
  | unknownEnabled opcode => "enabled_opcodes: unknown opcode " ++ opcode.quoted
  | unknownDisabled opcode => "disabled_opcodes: unknown opcode " ++ opcode.quoted

def named (name : Text) : Except Error Target :=
  match builtin.find? (·.name == name) with
  | some t => .ok t
  | none => .error (.unknownTarget name)

/-- The opcodes that an element of a list stands for: one opcode other than `phi`, or all. -/
def selected? (name : Text) : Option (List Opcode) :=
  if name = "all" then some allOps
  else
    match Opcode.ofName? name with
    | some .phi | none => none
    | some op => some [op]

/-- Changes a target by the opcodes of a list of names, the first of which that names no opcode is
an error. -/
def adjust (error : Text → Error) (change : Target → Opcode → Target) :
    Target → List Text → Except Error Target
  | t, [] => .ok t
  | t, name :: rest =>
    match selected? name with
    | none => .error (error name)
    | some ops => adjust error change (ops.foldl change t) rest

/-- The built-in target with some opcodes enabled and then some disabled. -/
def select (name : Text) (enabled disabled : List Text) : Except Error Target := do
  let t ← named name
  let t ← adjust .unknownEnabled enable t enabled
  adjust .unknownDisabled disable t disabled

end Target

end TypeFlow
