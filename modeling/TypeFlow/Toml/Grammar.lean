import TypeFlow.Toml.Draft
import TypeFlow.Toml.Numeral

/-! The grammar of configuration texts. A reader takes what it reads from the front of the text or
fails. The draft of a document is written as its text is read, so of two faults the first in the
text counts. No text needs more than two steps for each of its characters. -/

namespace TypeFlow.Toml

namespace Reader

/-- The next character, which stays. -/
def peek : Reader (Option Char) := fun cs => .ok (cs.head?, cs)

def next : Reader Char := fun
  | [] => .error .malformed
  | c :: cs => .ok (c, cs)

def skipBlanks : Reader Unit := modify (·.dropWhile isBlank)

/-- The text behind blanks, line breaks and comments. -/
def dropSpacing : (inComment : Bool) → List Char → Option (List Char)
  | _, [] => some []
  | true, c :: cs =>
    if isBreak c then dropSpacing false cs
    else if isForbidden c then none
    else dropSpacing true cs
  | false, c :: cs =>
    if isBlank c || isBreak c then dropSpacing false cs
    else if c = '#' then dropSpacing true cs
    else some (c :: cs)

def skipSpacing : Reader Unit := fun cs =>
  match dropSpacing false cs with
  | some cs => .ok ((), cs)
  | none => .error .malformed

def isBare (c : Char) : Bool := c.isAlphanum || c = '_' || c = '-'

/-- One part of a key: bare, or quoted on one line. -/
def part : Reader Text := fun
  | '"' :: cs => oneLine '"' cs
  | '\x27' :: cs => oneLine '\x27' cs
  | cs =>
    let name := cs.takeWhile isBare
    if name.isEmpty then .error .malformed else .ok (Text.ofChars name, cs.dropWhile isBare)

/-- A key and the character that ends it. -/
def key (stop : Char) : Nat → Reader Key
  | 0 => throw .malformed
  | steps + 1 => do
    skipBlanks
    let name ← part
    skipBlanks
    let c ← next
    if c = stop then return [name]
    else if c = '.' then return name :: (← key stop steps)
    else throw .malformed

/-- A value that is no list and no table. -/
def plain : Reader Value := fun
  | '"' :: cs => (quoted '"' cs).map fun (t, cs) => (.text t, cs)
  | '\x27' :: cs => (quoted '\x27' cs).map fun (t, cs) => (.text t, cs)
  | 't' :: 'r' :: 'u' :: 'e' :: cs => .ok (.flag true, cs)
  | 'f' :: 'a' :: 'l' :: 's' :: 'e' :: cs => .ok (.flag false, cs)
  | 'i' :: 'n' :: 'f' :: cs => .ok (.number, cs)
  | 'n' :: 'a' :: 'n' :: cs => .ok (.number, cs)
  | c :: cs =>
    if c = '+' || c = '-' then Numeral.signed c cs
    else if c.isDigit then Numeral.unsigned (c :: cs)
    else .error .malformed
  | [] => .error .malformed

/-- Ends the line of a statement, on which nothing else may stand. A null character ends the whole
text there. -/
def endLine : Reader Unit := fun cs =>
  match cs.dropWhile isBlank with
  | [] => .ok ((), [])
  | c :: cs =>
    if c = '\x00' then .ok ((), [])
    else if c = '#' || isBreak c then .ok ((), c :: cs)
    else .error .malformed

end Reader

/-- Reads on and writes a draft of the document. -/
abbrev Writer := StateT Draft Reader

namespace Writer

open Reader (peek next skipBlanks skipSpacing)

/-- Changes the draft, if it can be changed so. -/
def change (f : Draft → Option Draft) : Writer Unit := do
  match f (← get) with
  | some d => set d
  | none => throw .malformed

/-- Defines a dotted key in a table; the value is read once the tables on the way are entered. -/
def define (context key : Key) (read : Key → Text → Writer Value) : Writer (Text × Value) := do
  let inner := context ++ key.dropLast
  let name := key.getLastD []
  change (·.descend context key.dropLast)
  let v ← read inner name
  change (·.assign inner name v)
  modify fun d => (d.note inner name v.isList).list (inner ++ [name])
  return (name, v)

mutual

/-- The value of a name in a table. -/
def value (context : Key) (name : Text) (inList : Bool) : Nat → Writer Value
  | 0 => throw .malformed
  | steps + 1 => do
    skipBlanks
    match ← peek with
    | some '[' =>
      let _ ← next
      modify (·.note context name true)
      return .list (← elements context name steps)
    | some '\x7b' =>
      let _ ← next
      let key := context ++ [name]
      modify (·.mark key)
      change fun d => if inList then d.openElement key else d.openTable key
      skipBlanks
      if (← peek) = some '\x7d' then
        let _ ← next
        return .table []
      else return .table (← pairs key [] steps)
    | _ => Reader.plain

/-- The elements of a list up to its end. A comma may stand behind the last one. -/
def elements (context : Key) (name : Text) : Nat → Writer (List Value)
  | 0 => throw .malformed
  | steps + 1 => do
    skipSpacing
    if (← peek) = some ']' then
      let _ ← next
      return []
    else
      let v ← value context name true steps
      skipSpacing
      let c ← next
      if c = ',' then return v :: (← elements context name steps)
      else if c = ']' then return [v]
      else throw .malformed

/-- The pairs of a table on one line, up to its end. Of a dotted key the table itself has only the
last part. -/
def pairs (context : Key) (fields : Fields) : Nat → Writer Fields
  | 0 => throw .malformed
  | steps + 1 => do
    let k ← Reader.key '=' steps
    let (name, v) ← define context k fun inner name => value inner name false steps
    let fields := Fields.put fields name v
    skipBlanks
    let c ← next
    if c = ',' then pairs context fields steps
    else if c = '\x7d' then return fields
    else throw .malformed

end

/-- A header, from behind its brackets. It names the table that the statements behind it are in. -/
def header (key : Key) (enter : Draft → Option Draft) : Writer Key := do
  change enter
  modify fun d => (d.note key [] false).list key
  return key

/-- Reads a statement in the table `context` and says which table the next one is in. -/
def statement (context : Key) (steps : Nat) : Writer Key := do
  if (← peek) = some '[' then
    let _ ← next
    if (← peek) = some '[' then
      let _ ← next
      let k ← Reader.key ']' steps
      if (← next) = ']' then header k (·.openElement k) else throw .malformed
    else
      let k ← Reader.key ']' steps
      header k (·.openTable k)
  else
    let k ← Reader.key '=' steps
    let _ ← define context k fun inner name => value inner name false steps
    return context

/-- Reads statements to the end of the text. -/
def statements (context : Key) : Nat → Writer Unit
  | 0 => throw .malformed
  | steps + 1 => do
    skipSpacing
    if (← peek).isSome then
      let context ← statement context steps
      Reader.endLine
      statements context steps

end Writer

end TypeFlow.Toml
