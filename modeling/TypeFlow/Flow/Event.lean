import TypeFlow.Fact
import TypeFlow.Ssa.Listing

/-! What happens in a run of the analysis: edges are visited, values are evaluated, and stored facts
change. -/

namespace TypeFlow

/-- An edge of the control flow graph. The edge that enters the function has no source. -/
structure Edge where
  src : BlockId
  dst : BlockId
  deriving DecidableEq, Inhabited, Repr

def Edge.text (e : Edge) : Text :=
  if e.src = noBlock then "entry->b" ++ Text.ofInt e.dst
  else "b" ++ Text.ofInt e.src ++ "->b" ++ Text.ofInt e.dst

/-- Edges are ordered by source and then by destination. -/
def Edge.le (a b : Edge) : Bool :=
  if a.src = b.src then decide (a.dst ≤ b.dst) else decide (a.src ≤ b.src)

/-- Counts of the work done. -/
structure Stats where
  edgesVisited : Nat := 0
  blocksReached : Nat := 0
  instrEvals : Nat := 0
  phiEvals : Nat := 0
  updates : Nat := 0
  deriving DecidableEq, Repr

def Stats.text (s : Stats) : Text :=
  "\x7bEdgesVisited:" ++ Text.ofNat s.edgesVisited ++ " BlocksReached:"
    ++ Text.ofNat s.blocksReached ++ " InstrEvals:" ++ Text.ofNat s.instrEvals ++ " PhiEvals:"
    ++ Text.ofNat s.phiEvals ++ " Updates:" ++ Text.ofNat s.updates ++ "\x7d"

inductive Event where
  | start (blocks values : Nat)
  /-- An edge is visited; `first` says whether its destination is new. -/
  | edge (e : Edge) (first : Bool)
  | eval (id : ValueId)
  /-- The fact stored for a value, which is shown as `name`, changes. -/
  | update (id : ValueId) (name : Text) (old new : Fact)
  | done (stats : Stats)
  deriving DecidableEq, Repr

namespace Event

/-- The line of an event in the debugging log, if it has one. -/
def logLine? (function : Text) (event : Event) : Option Text :=
  (match event with
  | start blocks values =>
    some ("analyzing " ++ Text.ofNat blocks ++ " blocks, " ++ Text.ofNat values ++ " values")
  | edge e first =>
    some ("visiting edge " ++ e.text ++ " (first visit of block: " ++ Text.ofBool first ++ ")")
  | eval _ => none
  | update _ name old new => some (name ++ ": " ++ old.text ++ " -> " ++ new.text)
  | done stats => some ("done: " ++ stats.text)).map fun (line : Text) =>
    "sccp: " ++ function ++ ": " ++ line ++ "\n"

/-- The line of an event in a trace, empty for the events that have none. It is missing when the
event refers to something that the function does not have. -/
def traceLine? (fn : Func) : Event → Option Text
  | start _ _ | done _ => some []
  | edge e _ => do
    let dst ← fn.block? e.dst
    if e.src = noBlock then return "edge\t-> " ++ dst.label ++ "\n"
    let src ← fn.block? e.src
    return "edge\t" ++ src.label ++ " -> " ++ dst.label ++ "\n"
  | eval id => do
    let v ← fn.value? id
    let text ← fn.valueText? v
    return "eval\t" ++ text ++ "\n"
  | update id _ old new => do
    let name ← fn.valueName? id
    return "update\t" ++ name ++ ": " ++ old.text ++ " -> " ++ new.text ++ "\n"

end Event

end TypeFlow
