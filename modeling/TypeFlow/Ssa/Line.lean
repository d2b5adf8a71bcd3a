import TypeFlow.Ssa.Func
import TypeFlow.Ssa.Token

/-! The lines of a function body. An instruction line is `[NAME =] OP` and then operands and targets
with commas between them, or the edges `[LABEL: OPERAND]` of a φ-node. -/

namespace TypeFlow

namespace Line

/-- Why a line is not accepted. -/
inductive Fault where
  | expectedFunc
  | invalidLabel (label : Text)
  | duplicateLabel (label : Text)
  | outsideBlock
  | invalidName (name : Text)
  | redefined (name : Text)
  | noBlocks (function : Text)
  | missingOpcode
  | unknownOpcode (token : Text)
  | noResult (op : Opcode)
  | fewTargets (op : Opcode)
  | undefinedBlock (label : Text)
  | undefinedValue (name : Text)
  | expectedComma (token : Text)
  | unexpected (token : Text)
  | trailingComma
  | malformedEdge
  | commaBetweenEdges
  | literal (cause : Literal.Fault)
  deriving DecidableEq, Repr

def Fault.message : Fault → Text
  | expectedFunc => "expected 'func NAME'"
  | invalidLabel label => "invalid block label " ++ label.quoted
  | duplicateLabel label => "duplicate block label " ++ label.quoted
  | outsideBlock => "instruction outside of a block"
  | invalidName name => "invalid value name " ++ name.quoted
  | redefined name => "value " ++ name.quoted ++ " redefined"
  | noBlocks function => "function " ++ function ++ " has no blocks"
  | missingOpcode => "missing opcode"
  | unknownOpcode token => "unknown opcode " ++ token.quoted
  | noResult op => op.text ++ " produces no value and cannot be named"
  | fewTargets op => op.text ++ " needs " ++ Text.ofNat op.targetCount ++ " targets"
  | undefinedBlock label => "undefined block " ++ label.quoted
  | undefinedValue name => "undefined value " ++ name.quoted
  | expectedComma token => "expected ',', found " ++ token.quoted
  | unexpected token => "unexpected " ++ token.quoted
  | trailingComma => "trailing ','"
  | malformedEdge => "malformed φ edge, expected '[block: value]'"
  | commaBetweenEdges => "expected ',' between φ edges"
  | literal cause => cause.message

/-- The names that the lines of a function define: labels in order, and the values of named lines.
-/
structure Names where
  labels : List Text := []
  values : List (Text × ValueId) := []
  deriving DecidableEq, Repr

def Names.block? (names : Names) (label : Text) : Option BlockId :=
  (names.labels.idxOf? label).map (↑·)

def Names.value? (names : Names) (name : Text) : Option ValueId := names.values.lookup name

/-- An instruction or φ-node as it is written. -/
inductive Body where
  | instr (op : Opcode) (targets : List BlockId) (args : List Operand)
  | phi (edges : List Incoming)
  deriving DecidableEq, Repr

structure Statement where
  name : Option Text
  body : Body
  deriving DecidableEq, Repr

/-- The name before an equals sign, and the tokens behind it. -/
def result : List Text → Option Text × List Text
  | name :: eq :: rest => if eq = "=" then (some name, rest) else (none, name :: eq :: rest)
  | tokens => (none, tokens)

def isMark (token : Text) : Bool := token = "," || token = "[" || token = "]" || token = "="

/-- The items of a list after those in `done`, of which the last comes first. -/
def itemsAfter (done : List Text) : List Text → Except Fault (List Text)
  | [] => .ok done.reverse
  | [comma] => if comma = "," then .error .trailingComma else .error (.expectedComma comma)
  | comma :: token :: rest =>
    if comma ≠ "," then .error (.expectedComma comma)
    else if isMark token then .error (.unexpected token)
    else itemsAfter (token :: done) rest

/-- The items of a list with a comma between each two. -/
def items : List Text → Except Fault (List Text)
  | [] => .ok []
  | token :: rest => if isMark token then .error (.unexpected token) else itemsAfter [token] rest

def operand (names : Names) (token : Text) : Except Fault Operand :=
  match names.value? token with
  | some id => .ok (.value id)
  | none =>
    if Token.isName token then .error (.undefinedValue token)
    else
      match Literal.read token with
      | .ok lit => .ok (.literal lit)
      | .error cause => .error (.literal cause)

def target (names : Names) (label : Text) : Except Fault BlockId :=
  match names.block? label with
  | some id => .ok id
  | none => .error (.undefinedBlock label)

/-- The edges of a φ-node. -/
def edges (names : Names) : List Text → Except Fault (List Incoming)
  | [] => .ok []
  | left :: source :: arg :: right :: rest =>
    match Text.dropSuffix? ":" source with
    | some label =>
      if left ≠ "[" || right ≠ "]" then .error .malformedEdge
      else do
        let pred ← target names label
        let arg ← operand names arg
        match rest with
        | [] => return [⟨pred, arg⟩]
        | [_] => throw .commaBetweenEdges
        | comma :: more =>
          if comma = "," then return ⟨pred, arg⟩ :: (← edges names more)
          else throw .commaBetweenEdges
    | none => .error .malformedEdge
  | _ => .error .malformedEdge

/-- The operands and targets of an instruction; the targets come last. -/
def instr (names : Names) (op : Opcode) (tokens : List Text) : Except Fault Body := do
  let items ← items tokens
  if items.length < op.targetCount then throw (.fewTargets op)
  let args ← (items.take (items.length - op.targetCount)).mapM (operand names)
  let targets ← (items.drop (items.length - op.targetCount)).mapM (target names)
  return .instr op targets args

/-- Reads an instruction line. An empty name is none. -/
def statement (names : Names) (tokens : List Text) : Except Fault Statement :=
  match result tokens with
  | (_, []) => .error .missingOpcode
  | (written, token :: rest) =>
    match Opcode.ofName? token with
    | none => .error (.unknownOpcode token)
    | some op =>
      let name := written.filter (· ≠ [])
      if name.isSome && !op.hasOutput then .error (.noResult op)
      else if op = .phi then (edges names rest).map fun es => ⟨name, .phi es⟩
      else (instr names op rest).map fun body => ⟨name, body⟩

end Line

end TypeFlow
