import TypeFlow.Ssa.Literal
import TypeFlow.Ssa.Opcode

/-! Functions in static single assignment form. Blocks and values stand in lists, and everything
refers to them by number. Instructions and φ-nodes share one numbering. A function may be given as
it stands, so a number need not name anything. -/

namespace TypeFlow

/-- The number of a block. Numbers of blocks and values do not overflow: they are kept in 32 bits
elsewhere, and no function has that many. -/
abbrev BlockId := Int

abbrev ValueId := Int

/-- Where control comes from when it enters a function. -/
def noBlock : BlockId := -1

inductive Operand where
  | value (id : ValueId)
  | literal (lit : Literal)
  deriving DecidableEq, Repr

/-- What flows into a φ-node when control arrives from `pred`. -/
structure Incoming where
  pred : BlockId
  arg : Operand
  deriving DecidableEq, Repr

/-- A user of a value, and the block that the user lives in. -/
structure Use where
  user : ValueId
  block : BlockId
  deriving DecidableEq, Repr

/-- An instruction, with its operands and branch targets, or a φ-node, with its incoming edges. -/
structure Value where
  id : ValueId
  name : Text := []
  block : BlockId
  op : Opcode
  args : List Operand := []
  edges : List Incoming := []
  targets : List BlockId := []
  uses : List Use := []
  deriving DecidableEq, Repr

structure Block where
  id : BlockId
  name : Text := []
  phis : List ValueId := []
  instrs : List ValueId := []
  preds : List BlockId := []
  succs : List BlockId := []
  deriving DecidableEq, Repr

structure Func where
  name : Text
  entry : BlockId
  blocks : List Block
  values : List Value
  deriving DecidableEq, Repr

/-- The element that a number names. -/
def lookup (xs : List α) (i : Int) : Option α := if i < 0 then none else xs[i.toNat]?

def Value.isPhi (v : Value) : Bool := v.op == .phi

/-- The operands of a value, those of its incoming edges last. -/
def Value.operands (v : Value) : List Operand := v.args ++ v.edges.map (·.arg)

def Value.refersTo (v : Value) (id : ValueId) : Bool := v.operands.contains (.value id)

/-- The name under which a block is shown. -/
def Block.label (b : Block) : Text := if b.name.isEmpty then "b" ++ Text.ofInt b.id else b.name

/-- The φ-nodes and then the instructions of a block. -/
def Block.members (b : Block) : List ValueId := b.phis ++ b.instrs

namespace Func

def block? (fn : Func) (id : BlockId) : Option Block := lookup fn.blocks id

def value? (fn : Func) (id : ValueId) : Option Value := lookup fn.values id

def hasBlock (fn : Func) (id : BlockId) : Bool := 0 ≤ id && id < fn.blocks.length

def hasValue (fn : Func) (id : ValueId) : Bool := 0 ≤ id && id < fn.values.length

/-- The name under which a value is shown. -/
def valueName? (fn : Func) (id : ValueId) : Option Text :=
  (fn.value? id).map fun v => if v.name.isEmpty then "v" ++ Text.ofInt id else v.name

end Func

end TypeFlow
