import TypeFlow.Toml.Syntax

/-! A document while its text is read. A key may be defined once. A table that only came up on the
way to another key is implicit and may still be defined, once. A key that holds a list may be
defined anew, and nothing is kept of what it held. -/

namespace TypeFlow.Toml

namespace Fields

def put (fields : Fields) (name : Text) (v : Value) : Fields :=
  (name, v) :: fields.filter (·.1 != name)

/-- The table at a path. -/
def table? : Fields → Key → Option Fields
  | fields, [] => some fields
  | fields, name :: path =>
    match fields.lookup name with
    | some (.table inner) | some (.tables inner) => table? inner path
    | _ => none

/-- Puts a value into the table at a path. -/
def write (name : Text) (v : Value) : Key → Fields → Fields
  | [], fields => put fields name v
  | part :: path, fields =>
    match fields.lookup part with
    | some (.table inner) => put fields part (.table (write name v path inner))
    | some (.tables last) => put fields part (.tables (write name v path last))
    | _ => fields

/-- Adds the tables that are missing on a path, and says how many they are. -/
def extend : Key → Fields → Option (Fields × Nat)
  | [], fields => some (fields, 0)
  | name :: path, fields =>
    match fields.lookup name with
    | none => (extend path []).map fun (inner, n) => (put fields name (.table inner), n + 1)
    | some (.table inner) =>
      (extend path inner).map fun (inner, n) => (put fields name (.table inner), n)
    | some (.tables last) =>
      (extend path last).map fun (last, n) => (put fields name (.tables last), n)
    | some _ => none

end Fields

/-- Marks are kept by the text of a key. -/
structure Draft where
  fields : Fields := []
  implicit : List Text := []
  lists : List Text := []
  /-- The keys that were written, the last one first. -/
  keys : List Key := []

namespace Draft

def value? (d : Draft) (context : Key) (name : Text) : Option Value :=
  (Fields.table? d.fields context).bind (List.lookup name)

def write (d : Draft) (context : Key) (name : Text) (v : Value) : Draft :=
  { d with fields := Fields.write name v context d.fields }

def mark (d : Draft) (key : Key) : Draft := { d with implicit := Key.text key :: d.implicit }

def unmark (d : Draft) (key : Key) : Draft :=
  { d with implicit := d.implicit.filter (· != Key.text key) }

/-- Notes whether a key holds a list. An empty name stands for the table around it. -/
def note (d : Draft) (context : Key) (name : Text) (isList : Bool) : Draft :=
  let text := Key.text (if name.isEmpty then context else context ++ [name])
  let others := d.lists.filter (· != text)
  { d with lists := if isList then text :: others else others }

def list (d : Draft) (key : Key) : Draft := { d with keys := key :: d.keys }

/-- Defines a name in a table. What only came up on the way is kept as it is. -/
def assign (d : Draft) (context : Key) (name : Text) (v : Value) : Option Draft :=
  let key := context ++ [name]
  match Fields.table? d.fields context with
  | none => none
  | some fields =>
    if (fields.lookup name).isNone then some (d.write context name v)
    else if d.lists.contains (Key.text key) then some ((d.unmark key).write context name v)
    else if d.implicit.contains (Key.text key) then some (d.unmark key)
    else none

/-- Makes sure that the tables on a path exist. -/
def establish (d : Draft) (path : Key) : Option Draft :=
  (Fields.extend path d.fields).map fun (fields, missing) =>
    let marks := (List.range missing).map fun n => Key.text (path.take (path.length - n))
    { d with fields, implicit := marks ++ d.implicit }

/-- Defines a table. -/
def openTable (d : Draft) (key : Key) : Option Draft := do
  let d ← d.establish key.dropLast
  d.assign key.dropLast (key.getLastD []) (.table [])

/-- Adds a table to a list of tables. -/
def openElement (d : Draft) (key : Key) : Option Draft := do
  let d ← d.establish key.dropLast
  let name := key.getLastD []
  match d.value? key.dropLast name with
  | none | some (.tables _) => some (d.write key.dropLast name (.tables []))
  | some _ => none

/-- Enters the tables that the first parts of a dotted key name, one by one. -/
def descend (d : Draft) (context : Key) : Key → Option Draft
  | [] => some d
  | name :: rest => do
    let key := context ++ [name]
    let d ← (d.mark key).openTable key
    d.descend key rest

end Draft

end TypeFlow.Toml
