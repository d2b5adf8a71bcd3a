import TypeFlow.Ssa.Func

/-! The text of a function. It is missing only when something in the function refers to a block or
value that does not exist. -/

namespace TypeFlow

/-- Comments for the lines of a listing; an empty comment is left out. -/
structure Notes where
  block : Block → Text
  value : Value → Option Text

def Notes.none : Notes := ⟨fun _ => [], fun _ => some []⟩

namespace Func

def operandText? (fn : Func) : Operand → Option Text
  | .value id => fn.valueName? id
  | .literal lit => some lit.text

def incomingText? (fn : Func) (e : Incoming) : Option Text := do
  let pred ← fn.block? e.pred
  let arg ← fn.operandText? e.arg
  return "[" ++ pred.label ++ ": " ++ arg ++ "]"

def targetText? (fn : Func) (t : BlockId) : Option Text := (fn.block? t).map (·.label)

/-- What stands behind the opcode: the edges of a φ-node, or operands and then targets. -/
def itemTexts? (fn : Func) (v : Value) : Option (List Text) :=
  if v.isPhi then v.edges.mapM fn.incomingText?
  else do
    let args ← v.args.mapM fn.operandText?
    let targets ← v.targets.mapM fn.targetText?
    return args ++ targets

def resultText? (fn : Func) (v : Value) : Option Text :=
  if v.op.hasOutput then (fn.valueName? v.id).map (· ++ " = ") else some []

def itemList (items : List Text) : Text :=
  if items.isEmpty then [] else " " ++ Text.join ", " items

/-- An instruction or φ-node as it is written in a listing. -/
def valueText? (fn : Func) (v : Value) : Option Text := do
  let result ← fn.resultText? v
  let items ← fn.itemTexts? v
  return result ++ v.op.text ++ itemList items

end Func

def withComment (line comment : Text) : Text :=
  if comment.isEmpty then line else line ++ " # " ++ comment

namespace Func

def valueLine? (fn : Func) (notes : Notes) (id : ValueId) : Option Text := do
  let v ← fn.value? id
  let text ← fn.valueText? v
  let comment ← notes.value v
  return withComment ("\t" ++ text) comment ++ "\n"

def blockText? (fn : Func) (notes : Notes) (b : Block) : Option Text := do
  let lines ← b.members.mapM (fn.valueLine? notes)
  return withComment (b.label ++ ":") (notes.block b) ++ "\n" ++ lines.flatten

/-- The listing of a function with comments. -/
def annotated? (fn : Func) (notes : Notes) : Option Text := do
  let blocks ← fn.blocks.mapM (fn.blockText? notes)
  return "func " ++ fn.name ++ "\n" ++ blocks.flatten

/-- The listing of a function. -/
def listing? (fn : Func) : Option Text := fn.annotated? Notes.none

end Func

end TypeFlow
