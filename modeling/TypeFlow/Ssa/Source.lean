import TypeFlow.Ssa.Builder
import TypeFlow.Ssa.Line
import TypeFlow.Ssa.Listing

/-! Reading functions from text. A function is a line `func NAME` and the lines up to the next such
line; `#` starts a comment. The lines of a function are read when the function ends, first for the
names they define and then for what they say. -/

namespace TypeFlow

namespace Source

/-- Lines of this many bytes, a carriage return included, are not read. -/
def maxLine : Nat := 65536

/-- The lines of a text. The last one need not be ended. -/
def rawLines (t : Text) : List Text :=
  let parts := Text.split (Text.ascii '\n') t
  if parts.getLast? == some [] then parts.dropLast else parts

/-- A line without the carriage return at its end. -/
def dropReturn (line : Text) : Text := (Text.dropSuffix? "\r" line).getD line

/-- A line of a source: its number and its tokens, comments left out. -/
structure Numbered where
  number : Nat
  tokens : List Text
  deriving DecidableEq, Repr

/-- The lines that can be read, and whether a line that is too long comes behind them. -/
def readable (t : Text) : List Text × Bool :=
  let raw := rawLines t
  let short := raw.takeWhile (·.length < maxLine)
  (short, short.length < raw.length)

/-- The lines that hold tokens. -/
def numbered (lines : List Text) : List Numbered :=
  (lines.zipIdx 1).filterMap fun (line, number) =>
    match Token.split (Text.before (Text.ascii '#') (dropReturn line)) with
    | [] => none
    | tokens => some ⟨number, tokens⟩

/-- Why a source is not accepted. -/
inductive Error where
  | line (file : Text) (number : Nat) (fault : Line.Fault)
  | longLine
  | refused (file : Text) (cause : Builder.Refusal)
  | notOne (file : Text) (found : Nat)
  /-- The builder refused a call. -/
  | call (fault : Builder.Fault)
  /-- A named value did not get the number that its name stands for. -/
  | misnumbered (name : Text) (actual expected : ValueId)
  deriving DecidableEq, Repr

/-- The text of an error; a dangling number has none. -/
def Error.message? : Error → Option Text
  | line file number fault => some (file ++ ":" ++ Text.ofNat number ++ ": " ++ fault.message)
  | longLine => some "bufio.Scanner: token too long"
  | refused file cause => cause.message?.map fun m => file ++ ": " ++ m
  | notOne file found =>
    some (file ++ ": expected exactly one function, found " ++ Text.ofNat found)
  | call fault => fault.message?
  | misnumbered name actual expected =>
    some ("value " ++ name ++ " was assigned ID " ++ Text.ofInt actual ++ ", expected "
      ++ Text.ofInt expected)

/-- A function that is being read: its name, the line it starts on, and its lines, the last one
first. -/
structure Draft where
  name : Text
  number : Nat
  lines : List Numbered := []
  deriving DecidableEq, Repr

/-- The names defined by a line and by those before it; `next` is the number of the next value. -/
def define (names : Line.Names) (next : ValueId) (tokens : List Text) :
    Except Line.Fault (Line.Names × ValueId) :=
  match Token.label? tokens with
  | some label =>
    if !Token.isName label then .error (.invalidLabel label)
    else if names.labels.contains label then .error (.duplicateLabel label)
    else .ok ({ names with labels := names.labels ++ [label] }, next)
  | none =>
    if names.labels.isEmpty then .error .outsideBlock
    else
      match (Line.result tokens).1 with
      | none => .ok (names, next + 1)
      | some name =>
        if !Token.isName name then .error (.invalidName name)
        else if (names.value? name).isSome then .error (.redefined name)
        else .ok ({ names with values := (name, next) :: names.values }, next + 1)

/-- The names that the lines of a function define. -/
def defineAll (file : Text) : Line.Names → ValueId → List Numbered → Except Error Line.Names
  | names, _, [] => .ok names
  | names, next, l :: rest =>
    match define names next l.tokens with
    | .error fault => .error (.line file l.number fault)
    | .ok (names, next) => defineAll file names next rest

/-- A part of the construction of a function. When it fails, what was built so far is left. -/
abbrev Build := EStateM Error Builder

/-- Makes a call. The builder is left as it was when the call is refused. -/
def call {α : Type} (f : Builder → Except Builder.Fault (α × Builder)) : Build α := fun b =>
  match f b with
  | .ok (a, b') => .ok a b'
  | .error fault => .error (.call fault) b

/-- Adds the value of a body, as yet without a name. -/
def addBody (body : Line.Body) (b : Builder) : Except Builder.Fault (ValueId × Builder) :=
  match body with
  | .instr op targets args => b.addInstr op targets args
  | .phi edges => b.addPhi edges

/-- Adds the value of a statement. -/
def addStatement (names : Line.Names) (s : Line.Statement) : Build Unit := do
  let id ← call (addBody s.body)
  match s.name with
  | none => return
  | some name =>
    let expected := (names.value? name).getD 0
    if expected ≠ id then throw (.misnumbered name id expected)
    else call fun b => (b.setName id name).map fun b => ((), b)

/-- Reads a line that is no label. -/
def readValue (file : Text) (names : Line.Names) (l : Numbered) : Build Unit :=
  match Line.statement names l.tokens with
  | .error fault => throw (.line file l.number fault)
  | .ok s => addStatement names s

def readLine (file : Text) (names : Line.Names) (l : Numbered) : Build Unit :=
  match Token.label? l.tokens with
  | some label => modify fun b => { b with current := (names.block? label).getD 0 }
  | none => readValue file names l

/-- What was built, unless that failed. -/
def built : EStateM.Result Error Builder Unit → Except Error Builder
  | .ok () b => .ok b
  | .error e _ => .error e

/-- Reads a line into the function built so far. -/
def addLine (file : Text) (names : Line.Names) (b : Builder) (l : Numbered) :
    Except Error Builder :=
  built ((readLine file names l).run b)

/-- The function of a draft. -/
def Draft.toFunc (file : Text) (d : Draft) : Except Error Func := do
  let lines := d.lines.reverse
  let names ← defineAll file {} 0 lines
  if names.labels.isEmpty then throw (.line file d.number (.noBlocks d.name))
  let start := names.labels.foldl (fun b label => (b.addBlock label).2) (Builder.new d.name)
  let b ← lines.foldlM (addLine file names) start
  match b.finish with
  | .ok fn => return fn
  | .error cause => throw (.refused file cause)

/-- The functions read so far, the last one first, and the one being read. -/
structure Progress where
  done : List Func := []
  draft : Option Draft := none
  deriving DecidableEq, Repr

/-- Ends the function being read. -/
def Progress.close (file : Text) (p : Progress) : Except Error (List Func) :=
  match p.draft with
  | none => .ok p.done
  | some d => (d.toFunc file).map (· :: p.done)

def Progress.step (file : Text) (p : Progress) (l : Numbered) : Except Error Progress :=
  if l.tokens.head? = some (Text.ofString "func") then
    match l.tokens with
    | [_, name] => (p.close file).map fun done => ⟨done, some { name, number := l.number }⟩
    | _ => .error (.line file l.number .expectedFunc)
  else
    match p.draft with
    | none => .error (.line file l.number .expectedFunc)
    | some d => .ok { p with draft := some { d with lines := l :: d.lines } }

/-- Reads the functions of a text. Errors carry the name of the file. -/
def parse (file src : Text) : Except Error (List Func) := do
  let (lines, cut) := readable src
  let p ← (numbered lines).foldlM (Progress.step file) {}
  if cut then throw .longLine
  return (← p.close file).reverse

/-- Reads a text that holds exactly one function. -/
def parseOne (file src : Text) : Except Error Func := do
  match ← parse file src with
  | [fn] => return fn
  | fns => throw (.notOne file fns.length)

end Source

/-- The listings of functions one after the other. -/
def listings? (fns : List Func) : Option Text := (fns.mapM Func.listing?).map List.flatten

end TypeFlow
