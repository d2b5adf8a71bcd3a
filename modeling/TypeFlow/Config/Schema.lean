import TypeFlow.Config
import TypeFlow.Toml.Document

/-! The settings of a configuration file. Names are compared without regard to case when a file is
decoded and checked for unknown keys, but only a setting under its exact name is defined. -/

namespace TypeFlow.Config

open Toml (Key Document)

namespace Setting

def all : List Setting := [target, enabled, disabled, branchSuccessors, checkMonotonic, debug]

/-- The table that a setting stands in. -/
def table : Setting → Text
  | target | enabled | disabled => "backend"
  | branchSuccessors | checkMonotonic | debug => "sccp"

def name : Setting → Text
  | target => "target"
  | enabled => "enabled_opcodes"
  | disabled => "disabled_opcodes"
  | branchSuccessors => "branch_successors"
  | checkMonotonic => "check_monotonic"
  | debug => "debug"

end Setting

/-- A name with its letters made small. Two characters beyond ASCII fold into it: the long s and the
sign for kelvin. -/
def folded : Text → Text
  | 0xC5 :: 0xBF :: rest => Text.ascii 's' :: folded rest
  | 0xE2 :: 0x84 :: 0xAA :: rest => Text.ascii 'k' :: folded rest
  | c :: rest => (if Text.isLetter c then Text.lower c else c) :: folded rest
  | [] => []

def isTable (name : Text) : Bool := Setting.all.any fun s => s.table == folded name

/-- The setting that a name in a table is decoded into. -/
def setting? (table name : Text) : Option Setting :=
  Setting.all.find? fun s => s.table == folded table && s.name == folded name

def text? : Toml.Value → Option Text
  | .text t => some t
  | _ => none

def flag? : Toml.Value → Option Bool
  | .flag b => some b
  | _ => none

def texts? : Toml.Value → Option (List Text)
  | .list vs => vs.mapM text?
  | _ => none

/-- Stores a setting, if it has the right type. -/
def store? (c : Config) : Setting → Toml.Value → Option Config
  | .target, v => (text? v).map fun target => { c with target }
  | .enabled, v => (texts? v).map fun enabled => { c with enabled }
  | .disabled, v => (texts? v).map fun disabled => { c with disabled }
  | .branchSuccessors, v => (flag? v).map fun branchSuccessors => { c with branchSuccessors }
  | .checkMonotonic, v => (flag? v).map fun checkMonotonic => { c with checkMonotonic }
  | .debug, v => (flag? v).map fun debug => { c with debug }

/-- Decodes a field of a table, if it is one that settings are stored in. -/
def decodeField? (table : Text) (c : Config) (field : Text × Toml.Value) : Option Config :=
  match setting? table field.1 with
  | some s => c.store? s field.2
  | none => some c

/-- Decodes a field of a document, which has to be a table if settings stand in it. -/
def decode? (c : Config) (field : Text × Toml.Value) : Option Config :=
  match isTable field.1, field.2 with
  | true, .table fields => fields.foldlM (decodeField? field.1) c
  | true, _ => none
  | false, _ => some c

/-- The keys of a field of a document that are decoded. -/
def decodedKeys (field : Text × Toml.Value) : List Key :=
  match isTable field.1, field.2 with
  | true, .table fields =>
    let known := (fields.map (·.1)).filter fun name => (setting? field.1 name).isSome
    [field.1] :: known.map fun name => [field.1, name]
  | _, _ => []

/-- Why a text is no layer. -/
inductive Flaw where
  | malformed
  | unknown (keys : List Key)
  | crash (c : Toml.Crash)
  deriving DecidableEq, Repr

namespace Flaw

def ofFault : Toml.Fault → Flaw
  | .malformed => malformed
  | .crash c => crash c

def message : Flaw → Text
  | malformed => "<toml>"
  | unknown keys => "unknown keys: " ++ Text.join ", " (keys.map Key.text)
  | crash c => c.message

end Flaw

namespace Layer

/-- Keys are told apart by their texts when the unknown ones are listed. -/
def unknownKeys (doc : Document) : List Key :=
  let known := (doc.fields.flatMap decodedKeys).map Key.text
  doc.keys.filter fun k => !known.contains (Key.text k)

def defines (doc : Document) (s : Setting) : Bool :=
  match doc.fields.lookup s.table with
  | some (.table fields) => (fields.lookup s.name).isSome
  | _ => false

def ofDocument (doc : Document) : Except Flaw Layer :=
  match doc.fields.foldlM decode? {} with
  | none => .error .malformed
  | some values =>
    match unknownKeys doc with
    | [] => .ok ⟨values, Setting.all.filter (defines doc)⟩
    | keys => .error (.unknown keys)

def read (t : Text) : Except Flaw Layer :=
  match Document.read t with
  | .error f => .error (.ofFault f)
  | .ok doc => ofDocument doc

end Layer

end TypeFlow.Config
