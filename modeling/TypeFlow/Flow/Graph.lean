import TypeFlow.Flow.Solution

/-! The control flow graph of an analysed function, drawn in the language of Graphviz. A block shows
its φ-nodes and instructions with their facts. What was not reached or visited is dashed. -/

namespace TypeFlow

namespace Drawing

/-- Text inside a quoted label: backslashes and quotes are escaped. -/
def escaped (t : Text) : Text :=
  t.flatMap fun c =>
    if c = Text.ascii '\\' then "\\\\" else if c = Text.ascii '"' then "\\\"" else [c]

/-- The end of a line of a label, which is set flush left. -/
def lineEnd : Text := "\\l"

end Drawing

namespace Solution

open Drawing

def factSuffix? (s : Solution) (b : Block) (id : ValueId) (v : Value) : Option Text :=
  if v.op.hasOutput && s.isReachable b.id then (s.fact? id).map fun f => " : " ++ f.text
  else some []

def memberLine? (s : Solution) (fn : Func) (b : Block) (id : ValueId) : Option Text := do
  let v ← fn.value? id
  let text ← fn.valueText? v
  let fact ← s.factSuffix? b id v
  return escaped text ++ fact ++ lineEnd

def blockLabel? (s : Solution) (fn : Func) (b : Block) : Option Text := do
  let lines ← b.members.mapM (s.memberLine? fn b)
  return escaped b.label ++ ":" ++ lineEnd ++ lines.flatten

def node? (s : Solution) (fn : Func) (b : Block) : Option Text := do
  let label ← s.blockLabel? fn b
  let style : Text := if s.isReachable b.id then [] else ", style=dashed"
  return "\tn" ++ Text.ofInt b.id ++ " [label=\"" ++ label ++ "\"" ++ style ++ "];\n"

def arrow (s : Solution) (src : Text) (e : Edge) : Text :=
  let style : Text := if s.isVisited e then [] else " [style=dashed]"
  "\t" ++ src ++ " -> n" ++ Text.ofInt e.dst ++ style ++ ";\n"

def arrows (s : Solution) (b : Block) : Text :=
  (b.succs.map fun succ => s.arrow ("n" ++ Text.ofInt b.id) ⟨b.id, succ⟩).flatten

/-- The drawing of an analysed function. -/
def graph? (s : Solution) (fn : Func) : Option Text := do
  let nodes ← fn.blocks.mapM (s.node? fn)
  return "digraph \x7b\n\tlabel = \"" ++ escaped fn.name
    ++ "\";\n\tnode [shape=box, fontname=monospace];\n\tentry [shape=point];\n" ++ nodes.flatten
    ++ s.arrow "entry" ⟨noBlock, fn.entry⟩ ++ (fn.blocks.map s.arrows).flatten ++ "\x7d\n"

end Solution

end TypeFlow
