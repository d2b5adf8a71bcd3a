import TypeFlow.Flow.Event
import TypeFlow.IntSet

/-! What a run of the analysis has found out: a fact for every value, the reachable blocks and the
visited edges. -/

namespace TypeFlow

structure Solution where
  /-- The facts by number of the value. -/
  facts : List Fact
  reachable : IntSet
  /-- The visited edges, the latest first. -/
  visited : List Edge
  stats : Stats
  deriving DecidableEq, Repr

/-- What is known about a literal. -/
def Literal.fact (c : Literal) : Fact :=
  if c = ofBool true then Fact.ofBool true
  else if c = ofBool false then Fact.ofBool false
  else Fact.ofType c.type

namespace Solution

def fact? (s : Solution) (id : ValueId) : Option Fact := lookup s.facts id

def operand? (s : Solution) : Operand → Option Fact
  | .value id => s.fact? id
  | .literal lit => some lit.fact

def isReachable (s : Solution) (b : BlockId) : Bool := s.reachable.contains b

def isVisited (s : Solution) (e : Edge) : Bool := s.visited.contains e

def visitedEdges (s : Solution) : List Edge := s.visited.mergeSort Edge.le

/-- The blocks of a function that were not reached. -/
def unreachable (s : Solution) (fn : Func) : List BlockId :=
  (fn.blocks.map (·.id)).filter (!s.isReachable ·)

/-- The fact of a φ-node in a block, given the fact `cur` of the edges before. Edges that were not
visited do not count. As long as something that flows in is unknown, so is the φ-node. -/
def meetIncoming? (s : Solution) (block : BlockId) (cur : Fact) : List Incoming → Option Fact
  | [] => some cur
  | e :: rest =>
    if s.isVisited ⟨e.pred, block⟩ then
      match s.operand? e.arg with
      | none => none
      | some f =>
        if f = Fact.top then some Fact.top
        else if cur = Fact.top then s.meetIncoming? block f rest
        else if f ≠ cur then some Fact.bottom
        else s.meetIncoming? block cur rest
    else s.meetIncoming? block cur rest

def phiFact? (s : Solution) (phi : Value) : Option Fact :=
  s.meetIncoming? phi.block Fact.top phi.edges

/-- The comments of an annotated listing: reachability of blocks, and the facts of values that have
an output and live in a reachable block. -/
def notes (s : Solution) (fn : Func) : Notes where
  block b := if s.isReachable b.id then "reachable" else "unreachable"
  value v := do
    let v ← fn.value? v.id
    if v.op.hasOutput && s.isReachable v.block then return (← s.fact? v.id).text
    return []

/-- The listing of the analysed function with what was found out. -/
def listing? (s : Solution) (fn : Func) : Option Text := fn.annotated? (s.notes fn)

end Solution

end TypeFlow
