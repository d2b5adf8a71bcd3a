import TypeFlow.Flow.Solution
import TypeFlow.Report.Grid

/-! The table of an analysed function: a row for each φ-node and instruction, with its block, its
name if it has an output, and its fact if its block was reached. -/

namespace TypeFlow

/-- What a cell is coloured for. -/
inductive Shade where
  | dead
  | bottom
  | known
  deriving DecidableEq, Repr

def Shade.code : Shade → Text
  | dead => "90"
  | bottom => "31"
  | known => "32"

/-- A text between escape codes, if colours are on. -/
def Shade.paint (color : Bool) (shade : Shade) (t : Text) : Text :=
  if color then "\x1b[" ++ shade.code ++ "m" ++ t ++ "\x1b[0m" else t

def Fact.painted (color : Bool) (f : Fact) : Text :=
  match f.kind with
  | .bottom => Shade.bottom.paint color f.text
  | .top => f.text
  | _ => Shade.known.paint color f.text

namespace Solution

def row? (s : Solution) (fn : Func) (color : Bool) (b : Block) (id : ValueId) :
    Option (List Text) := do
  let v ← fn.value? id
  let name ← if v.op.hasOutput then fn.valueName? id else some []
  let fact ←
    if v.op.hasOutput && s.isReachable b.id then (s.fact? id).map (·.painted color) else some []
  let instr ← fn.valueText? v
  if s.isReachable b.id then return [b.label, name, instr, fact]
  return [Shade.dead.paint color (b.label ++ " (unreachable)"), name,
    Shade.dead.paint color instr, fact]

def rows? (s : Solution) (fn : Func) (color : Bool) (b : Block) : Option (List (List Text)) :=
  b.members.mapM (s.row? fn color b)

/-- The name of the function and its table. -/
def table? (s : Solution) (fn : Func) (color : Bool) : Option Text := do
  let rows ← fn.blocks.mapM (s.rows? fn color)
  let grid : Grid := ⟨["Block", "Value", "Instruction", "TypeVal"], rows.flatten⟩
  return "func " ++ fn.name ++ "\n" ++ grid.render

/-- The line of statistics. -/
def statsLine (s : Solution) (fn : Func) : Text :=
  "edges visited: " ++ Text.ofNat s.stats.edgesVisited ++ ", blocks reached: "
    ++ Text.ofNat s.stats.blocksReached ++ "/" ++ Text.ofNat fn.blocks.length ++ ", evaluations: "
    ++ Text.ofNat (s.stats.instrEvals + s.stats.phiEvals) ++ " (" ++ Text.ofNat s.stats.phiEvals
    ++ " φ), updates: " ++ Text.ofNat s.stats.updates ++ "\n"

end Solution

end TypeFlow
