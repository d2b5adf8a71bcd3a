import TypeFlow.Ssa.Check

/-! Building a function call by call. The first block is the entry. A value may refer to values that
come later; references are checked when the function is finished, which also finds the edges of the
control flow graph and the users of every value. -/

namespace TypeFlow

structure Builder where
  func : Func
  current : BlockId
  deriving DecidableEq, Repr

namespace Builder

def new (name : Text) : Builder := ⟨⟨name, noBlock, [], []⟩, noBlock⟩

/-- Why a call is refused. -/
inductive Fault where
  | noCurrentBlock
  | phiAsInstr
  | notPhi (name : Text)
  /-- The call used a number that names nothing. -/
  | dangling
  deriving DecidableEq, Repr

/-- The text of a fault; a dangling number has none. -/
def Fault.message? : Fault → Option Text
  | noCurrentBlock => some "ir: no current block"
  | phiAsInstr => some "ir: use Builder.Phi to create φ-nodes"
  | notPhi name => some ("ir: " ++ name ++ " is not a φ-node")
  | dangling => none

/-- A step of the construction of a function. -/
inductive Call where
  | block (name : Text)
  | setBlock (id : BlockId)
  | current
  | instr (op : Opcode) (targets : List BlockId) (args : List Operand)
  | phi (edges : List Incoming)
  | addEdge (phi : ValueId) (pred : BlockId) (arg : Operand)
  | setName (id : ValueId) (name : Text)
  deriving DecidableEq, Repr

namespace Call

def emit (op : Opcode) (args : List Operand) : Call := instr op [] args

def jmp (target : BlockId) : Call := instr .jmp [target] []

def br (cond : Operand) (yes no : BlockId) : Call := instr .br [yes, no] [cond]

def ret (args : List Operand) : Call := instr .ret [] args

end Call

/-- Adds an empty block, which does not become the current one. -/
def addBlock (b : Builder) (name : Text) : BlockId × Builder :=
  let id : BlockId := b.func.blocks.length
  (id, { b with func := { b.func with
    blocks := b.func.blocks ++ [{ id, name }]
    entry := if b.func.entry = noBlock then id else b.func.entry } })

/-- Adds a value to the current block, where `place` puts its number. -/
def addValue (b : Builder) (v : ValueId → Value) (place : ValueId → Block → Block) :
    Except Fault (ValueId × Builder) :=
  if b.current = noBlock then .error .noCurrentBlock
  else if !b.func.hasBlock b.current then .error .dangling
  else
    let id : ValueId := b.func.values.length
    .ok (id, { b with func := { b.func with
      values := b.func.values ++ [v id]
      blocks := b.func.blocks.modify b.current.toNat (place id) } })

def addInstr (b : Builder) (op : Opcode) (targets : List BlockId) (args : List Operand) :
    Except Fault (ValueId × Builder) :=
  if op = .phi then .error .phiAsInstr
  else
    b.addValue (fun id => { id, block := b.current, op, args, targets })
      fun id blk => { blk with instrs := blk.instrs ++ [id] }

def addPhi (b : Builder) (edges : List Incoming) : Except Fault (ValueId × Builder) :=
  b.addValue (fun id => { id, block := b.current, op := .phi, edges })
    fun id blk => { blk with phis := blk.phis ++ [id] }

def modifyValue (b : Builder) (id : ValueId) (f : Value → Value) : Builder :=
  { b with func := { b.func with values := b.func.values.modify id.toNat f } }

def addEdge (b : Builder) (phi : ValueId) (e : Incoming) : Except Fault Builder :=
  match b.func.value? phi, b.func.valueName? phi with
  | some v, some name =>
    if v.isPhi then .ok (b.modifyValue phi fun v => { v with edges := v.edges ++ [e] })
    else .error (.notPhi name)
  | _, _ => .error .dangling

def setName (b : Builder) (id : ValueId) (name : Text) : Except Fault Builder :=
  if b.func.hasValue id then .ok (b.modifyValue id fun v => { v with name }) else .error .dangling

/-- Makes a call, which may answer with a number. A refused call leaves the builder as it was. -/
def call (b : Builder) : Call → Except Fault (Option Int × Builder)
  | .block name => let (id, b) := b.addBlock name; .ok (some id, b)
  | .setBlock id => .ok (none, { b with current := id })
  | .current => .ok (some b.current, b)
  | .instr op targets args => (b.addInstr op targets args).map fun (id, b) => (some id, b)
  | .phi edges => (b.addPhi edges).map fun (id, b) => (some id, b)
  | .addEdge phi pred arg => (b.addEdge phi ⟨pred, arg⟩).map fun b => (none, b)
  | .setName id name => (b.setName id name).map fun b => (none, b)

/-- Why a function cannot be finished. -/
inductive Refusal where
  | noBlocks (function : Text)
  | missingTarget (function value : Text) (target : BlockId)
  | unsound (diagnosis : Diagnosis)
  | dangling
  deriving DecidableEq, Repr

/-- The text of a refusal; a dangling number has none. -/
def Refusal.message? : Refusal → Option Text
  | noBlocks function => some ("function " ++ function ++ " has no blocks")
  | missingTarget function value target =>
    some ("function " ++ function ++ ": " ++ value ++ " targets nonexistent block "
      ++ Text.ofInt target)
  | unsound diagnosis => some diagnosis.message
  | dangling => none

end Builder

namespace Func

/-- The first target that does not exist, and the value that has it. -/
def missingTarget? (fn : Func) : Option (ValueId × BlockId) :=
  fn.values.findSome? fun v => (v.targets.find? (!fn.hasBlock ·)).map (v.id, ·)

/-- The last instruction of a block. -/
def lastInstr? (fn : Func) (b : Block) : Option Value := b.instrs.getLast?.bind fn.value?

/-- The blocks after an edge was found, which counts once. -/
def addFlow (source : BlockId) (blocks : List Block) (target : BlockId) : List Block :=
  if (lookup blocks source).any (·.succs.contains target) then blocks
  else
    (blocks.modify source.toNat fun b => { b with succs := b.succs ++ [target] }).modify
      target.toNat fun b => { b with preds := b.preds ++ [source] }

/-- The blocks with the edges between them, found block by block. -/
def flow (fn : Func) : List Block :=
  fn.blocks.foldl
    (fun blocks b => ((fn.lastInstr? b).elim [] (·.targets)).foldl (addFlow b.id) blocks)
    (fn.blocks.map fun b => { b with preds := [], succs := [] })

/-- The values after an operand of `user` was found. What one value refers to is found in one go, so
a user that is known already is the last one. -/
def addUse (user : Value) (values : List Value) : Operand → List Value
  | .literal _ => values
  | .value id =>
    if id < 0 then values
    else
      values.modify id.toNat fun v =>
        if v.uses.getLast?.any (·.user == user.id) then v
        else { v with uses := v.uses ++ [⟨user.id, user.block⟩] }

/-- The values with their users, found value by value. -/
def usage (fn : Func) : List Value :=
  fn.values.foldl (fun values v => v.operands.foldl (addUse v) values)
    (fn.values.map fun v => { v with uses := [] })

/-- The function with its control flow edges and use lists filled in. -/
def linked (fn : Func) : Func := { fn with blocks := fn.flow, values := fn.usage }

end Func

/-- Finishes a function: its targets must exist, and it must pass the check. -/
def Builder.finish (b : Builder) : Except Builder.Refusal Func :=
  if b.func.blocks.isEmpty then .error (.noBlocks b.func.name)
  else
    match b.func.missingTarget? with
    | some (id, target) =>
      match b.func.valueName? id with
      | some name => .error (.missingTarget b.func.name name target)
      | none => .error .dangling
    | none =>
      let fn := b.func.linked
      match fn.problems? with
      | none => .error .dangling
      | some [] => .ok fn
      | some problems => .error (.unsound ⟨fn.name, problems⟩)

end TypeFlow
