import TypeFlow.Ssa.Func

/-! The check of a function: blocks end in their only terminator, targets and operands exist,
φ-nodes have edges from predecessors only, and what use lists hold does use the value. The check
names values by their own numbers, so it fails to answer when such a number names nothing. -/

namespace TypeFlow

/-- What is wrong with a function. Names are those under which values are shown. -/
inductive Defect where
  | badEntry (id : BlockId)
  | misplacedBlock (id : BlockId) (index : Nat)
  | misplacedValue (name : Text) (id : ValueId) (index : Nat)
  | noInstructions
  | missingPhi (id : ValueId)
  | notPhi (name : Text) (op : Opcode)
  | phiElsewhere (name : Text) (block : BlockId)
  | repeatedEdge (name : Text) (pred : BlockId)
  | foreignEdge (name : Text) (pred : BlockId)
  | missingInstr (id : ValueId)
  | instrElsewhere (name : Text) (block : BlockId)
  | badOpcode (name : Text) (op : Opcode)
  | earlyTerminator (name : Text) (op : Opcode)
  | noTerminator (name : Text) (op : Opcode)
  | operandCount (name : Text) (op : Opcode) (actual expected : Nat)
  | targetCount (name : Text) (op : Opcode) (actual expected : Nat)
  | missingTarget (name : Text) (block : BlockId)
  | voidOperand (name : Text)
  | missingOperand (name : Text) (id : ValueId)
  | noOutput (name used : Text)
  | missingUser (name : Text) (id : ValueId)
  | userElsewhere (name user : Text) (recorded actual : BlockId)
  | notUser (name user : Text)
  deriving DecidableEq, Repr

namespace Defect

def message : Defect → Text
  | badEntry id => "invalid entry block " ++ Text.ofInt id
  | misplacedBlock id index => "has ID " ++ Text.ofInt id ++ " at index " ++ Text.ofNat index
  | misplacedValue name id index =>
    "value " ++ name ++ " has ID " ++ Text.ofInt id ++ " at index " ++ Text.ofNat index
  | noInstructions => "has no instructions"
  | missingPhi id => "lists nonexistent φ-node " ++ Text.ofInt id
  | notPhi name op => name ++ " is listed as a φ-node but is " ++ op.text
  | phiElsewhere name block => "φ-node " ++ name ++ " belongs to block " ++ Text.ofInt block
  | repeatedEdge name pred =>
    "φ-node " ++ name ++ " has several edges from block " ++ Text.ofInt pred
  | foreignEdge name pred =>
    "φ-node " ++ name ++ " has an edge from block " ++ Text.ofInt pred
      ++ ", which is not a predecessor"
  | missingInstr id => "lists nonexistent instruction " ++ Text.ofInt id
  | instrElsewhere name block =>
    "instruction " ++ name ++ " belongs to block " ++ Text.ofInt block
  | badOpcode name op => "instruction " ++ name ++ " has invalid opcode " ++ op.text
  | earlyTerminator name op =>
    "terminator " ++ name ++ " (" ++ op.text ++ ") is not the last instruction"
  | noTerminator name op =>
    "last instruction " ++ name ++ " (" ++ op.text ++ ") is not a terminator"
  | operandCount name op actual expected =>
    name ++ " (" ++ op.text ++ ") has " ++ Text.ofNat actual ++ " operands, want "
      ++ Text.ofNat expected
  | targetCount name op actual expected =>
    name ++ " (" ++ op.text ++ ") has " ++ Text.ofNat actual ++ " targets, want "
      ++ Text.ofNat expected
  | missingTarget name block => name ++ " targets nonexistent block " ++ Text.ofInt block
  | voidOperand name => name ++ " has a void literal operand"
  | missingOperand name id => name ++ " refers to nonexistent value " ++ Text.ofInt id
  | noOutput name used => name ++ " uses " ++ used ++ ", which has no output"
  | missingUser name id =>
    "use-list of " ++ name ++ " refers to nonexistent value " ++ Text.ofInt id
  | userElsewhere name user recorded actual =>
    "use-list of " ++ name ++ " records " ++ user ++ " in block " ++ Text.ofInt recorded
      ++ ", but it lives in block " ++ Text.ofInt actual
  | notUser name user => "use-list of " ++ name ++ " lists " ++ user ++ ", which does not use it"

end Defect

/-- A defect, and the block it was found in if it belongs to one. -/
structure Problem where
  block : Option Text
  defect : Defect
  deriving DecidableEq, Repr

def Problem.message (p : Problem) : Text :=
  match p.block with
  | none => p.defect.message
  | some label => "block " ++ label ++ ": " ++ p.defect.message

/-- The problems of a function, of which there is at least one. -/
structure Diagnosis where
  function : Text
  problems : List Problem
  deriving DecidableEq, Repr

def Diagnosis.message (d : Diagnosis) : Text :=
  "function " ++ d.function ++ ": " ++
    match d.problems with
    | [p] => p.message
    | ps => Text.ofNat ps.length ++ " problems:\n\t" ++ Text.join "\n\t" (ps.map (·.message))

namespace Func

def operandDefects? (fn : Func) (user : Value) : Operand → Option (List Defect)
  | .literal lit =>
    if lit.type = .void then do return [.voidOperand (← fn.valueName? user.id)] else some []
  | .value id =>
    match fn.value? id with
    | none => do return [.missingOperand (← fn.valueName? user.id) id]
    | some used =>
      if used.op.hasOutput then some []
      else do return [.noOutput (← fn.valueName? user.id) (← fn.valueName? used.id)]

/-- The defects of the edges of a φ-node in a block; `seen` are the sources of earlier edges. -/
def edgeDefects? (fn : Func) (b : Block) (phi : Value) (seen : List BlockId) :
    List Incoming → Option (List Defect)
  | [] => some []
  | e :: rest => do
    let repeated ←
      if seen.contains e.pred then do pure [.repeatedEdge (← fn.valueName? phi.id) e.pred]
      else some []
    let foreign ←
      if b.preds.contains e.pred then some []
      else do pure [.foreignEdge (← fn.valueName? phi.id) e.pred]
    let operand ← fn.operandDefects? phi e.arg
    let others ← fn.edgeDefects? b phi (e.pred :: seen) rest
    return repeated ++ foreign ++ operand ++ others

def phiDefects? (fn : Func) (b : Block) (id : ValueId) : Option (List Defect) :=
  match fn.value? id with
  | none => some [.missingPhi id]
  | some phi => do
    let name ← fn.valueName? id
    let edges ← fn.edgeDefects? b phi [] phi.edges
    return (if phi.isPhi then [] else [.notPhi name phi.op])
      ++ (if phi.block = b.id then [] else [.phiElsewhere name phi.block]) ++ edges

/-- The defects of the instruction `id` of a block, which is its last one or not. -/
def instrDefects? (fn : Func) (b : Block) (last : Bool) (id : ValueId) :
    Option (List Defect) :=
  match fn.value? id with
  | none => some [.missingInstr id]
  | some v => do
    let name ← fn.valueName? id
    let place : List Defect := if v.block = b.id then [] else [.instrElsewhere name v.block]
    if !v.op.isValid || v.isPhi then return place ++ [.badOpcode name v.op]
    let operands ← v.args.mapM (fn.operandDefects? v)
    return place
      ++ (if v.op.isTerminator && !last then [.earlyTerminator name v.op] else [])
      ++ (if last && !v.op.isTerminator then [.noTerminator name v.op] else [])
      ++ (match v.op.arity? with
          | some n =>
            if v.args.length = n then [] else [.operandCount name v.op v.args.length n]
          | none => [])
      ++ (if v.targets.length = v.op.targetCount then []
          else [.targetCount name v.op v.targets.length v.op.targetCount])
      ++ (v.targets.filter (!fn.hasBlock ·)).map (.missingTarget name)
      ++ operands.flatten

/-- The defects of the instructions of a block, the last of which closes it. -/
def instrsDefects? (fn : Func) (b : Block) : List ValueId → Option (List Defect)
  | [] => some []
  | id :: rest => do
    let first ← fn.instrDefects? b rest.isEmpty id
    let others ← fn.instrsDefects? b rest
    return first ++ others

def blockDefects? (fn : Func) (index : Nat) (b : Block) : Option (List Defect) := do
  let phis ← b.phis.mapM (fn.phiDefects? b)
  let instrs ← fn.instrsDefects? b b.instrs
  return (if b.id = index then [] else [.misplacedBlock b.id index])
    ++ (if b.instrs.isEmpty then [.noInstructions] else []) ++ phis.flatten ++ instrs

def valueDefects? (fn : Func) (index : Nat) (v : Value) : Option (List Defect) :=
  if v.id = index then some []
  else do return [.misplacedValue (← fn.valueName? v.id) v.id index]

def useDefects? (fn : Func) (used : Value) (u : Use) : Option (List Defect) :=
  match fn.value? u.user with
  | none => do return [.missingUser (← fn.valueName? used.id) u.user]
  | some user => do
    let place ←
      if user.block = u.block then some []
      else do pure [.userElsewhere (← fn.valueName? used.id) (← fn.valueName? user.id)
        u.block user.block]
    let reference ←
      if user.refersTo used.id then some []
      else do pure [.notUser (← fn.valueName? used.id) (← fn.valueName? user.id)]
    return place ++ reference

def usesDefects? (fn : Func) (used : Value) : Option (List Defect) :=
  (used.uses.mapM (fn.useDefects? used)).map List.flatten

/-- The problems of a function in the order in which they are reported. An entry that does not exist
is reported alone. -/
def problems? (fn : Func) : Option (List Problem) :=
  if !fn.hasBlock fn.entry then some [⟨none, .badEntry fn.entry⟩]
  else do
    let blocks ← fn.blocks.zipIdx.mapM fun (b, i) =>
      (fn.blockDefects? i b).map fun ds => ds.map fun d => Problem.mk (some b.label) d
    let values ← fn.values.zipIdx.mapM fun (v, i) => fn.valueDefects? i v
    let uses ← fn.values.mapM fn.usesDefects?
    return blocks.flatten ++ (values ++ uses).flatten.map fun d => ⟨none, d⟩

end Func

end TypeFlow
