import TypeFlow.Flow.Solution
import TypeFlow.Queue
import TypeFlow.Target

/-! The solver. Control flow edges and values wait in two queues; all edges are visited before any
value is evaluated again, and all values before any further edge. A run that fails leaves the state
as it was at the failure. -/

namespace TypeFlow

/-- What comes of a call to a hook: what it writes, and whether it returns. -/
structure Called where
  text : Text := []
  returns : Bool := true
  deriving DecidableEq, Repr

structure Options where
  /-- The opcodes of the target must have a rule. -/
  target : Option Target := none
  /-- Whether the targets of a conditional branch become reachable with its block. -/
  branchSuccessors : Bool := true
  /-- Whether a fact that does not descend is a failure. -/
  checkMonotonic : Bool := true
  order : Order := .oldest
  /-- Called with every event after it was recorded; the run fails when the call does not return. -/
  hook : Event → Called := fun _ => {}

/-- Whether the hook returns when it is called with an event. -/
def Options.watch (o : Options) (event : Event) : Bool := (o.hook event).returns

structure State extends Solution where
  edges : Queue Edge := {}
  ready : Queue ValueId := {}
  /-- The values in `ready`. -/
  pending : IntSet := {}
  /-- The events so far, the latest first. -/
  journal : List Event := []
  deriving DecidableEq, Repr

def State.initial (fn : Func) : State where
  facts := fn.values.map fun _ => Fact.top
  reachable := {}
  visited := []
  stats := {}

inductive Failure where
  /-- An opcode that the target supports has no rule. -/
  | unhandled (function value : Text) (op : Opcode) (target : Text)
  | lattice (fault : Lattice.Fault Fact)
  | emptyQueue
  /-- A number was used that names nothing. -/
  | dangling
  /-- The last event was not accepted. -/
  | unobserved
  /-- The run did not end within the given number of steps. -/
  | unsettled
  deriving DecidableEq, Repr

/-- The text of a failure, unless something was missing. -/
def Failure.message? : Failure → Option Text
  | unhandled function value op target =>
    some ("sccp: no transfer rule for opcode " ++ op.text ++ " (" ++ value ++ " in function "
      ++ function ++ "), which backend " ++ target ++ " supports")
  | lattice fault => some (fault.message Fact.text)
  | emptyQueue => some "pop from empty worklist"
  | unsettled => some "the analysis does not settle"
  | dangling | unobserved => none

/-- How a run failed, if it did, and the state that it ended in. -/
structure Outcome where
  failure : Option Failure
  state : State
  deriving DecidableEq, Repr

namespace Outcome

/-- The events of a run in order, as they were recorded. -/
def journal (o : Outcome) : List Event := o.state.journal.reverse

/-- The events of a run that were accepted. -/
def events (o : Outcome) : List Event :=
  if o.failure = some .unobserved then o.journal.dropLast else o.journal

/-- The messages that a run logs for debugging. -/
def logLines (o : Outcome) (function : Text) : List Text :=
  o.journal.filterMap (Event.logLine? function)

/-- The trace of a run. -/
def trace (o : Outcome) (fn : Func) : Text := (o.events.filterMap (Event.traceLine? fn)).flatten

end Outcome

/-- A part of a run. -/
abbrev Action := EStateM Failure State

/-- Installs a hook that writes every event to a trace and then calls the hook that was there. -/
def Options.traced (o : Options) (fn : Func) : Options :=
  { o with hook := fun event =>
      match event.traceLine? fn with
      | none => { returns := false }
      | some line =>
        let earlier := o.hook event
        { earlier with text := line ++ earlier.text } }

theorem Options.watch_traced (o : Options) (fn : Func) (event : Event) :
    (o.traced fn).watch event = ((event.traceLine? fn).isSome && o.watch event) := by
  simp only [watch, traced]
  cases event.traceLine? fn <;> rfl

/-- A function to be analysed under some options. -/
structure Task where
  func : Func
  options : Options

/-- What the hook of a task writes in a run, call after call. -/
def Task.written (t : Task) (o : Outcome) : Text :=
  o.journal.flatMap fun event => (t.options.hook event).text

/-- The fact of the results of an opcode, if the analysis has a rule for it. What an opcode without
output and without targets computes is never looked at. -/
def Opcode.rule? (op : Opcode) : Option Fact :=
  match op with
  | .addI32 | .subI32 | .mulI32 | .andI32 | .orI32 | .notI32 | .shlI32 | .shrI32 | .ushrI32 =>
    some (Fact.ofType .i32)
  -- Instruction selection relies on integers here.
  | .addF64 | .subF64 | .mulF64 | .divF64 => some (Fact.ofType .i32)
  | .loadU8 | .loadU16 | .loadU32 => some (Fact.ofType .i32)
  | .loadF64 => some (Fact.ofType .f64)
  | .loadRef => some (Fact.ofType .ref)
  | .loadPtr => some (Fact.ofType .ptr)
  | .ltI32 | .leI32 | .gtI32 | .geI32 | .eqI32 | .neI32
  | .ltF64 | .leF64 | .gtF64 | .geF64 | .eqF64 | .neF64
  | .eqConst | .eqRef => some (Fact.ofType .const)
  | .jmp => some Fact.bottom
  | _ => if op.hasOutput || 0 < op.targetCount then none else some Fact.bottom

namespace Task

/-- What a number names. -/
def need {α : Type} : Option α → Action α
  | some x => pure x
  | none => throw .dangling

def emit (t : Task) (event : Event) : Action Unit := do
  modify fun s => { s with journal := event :: s.journal }
  if !t.options.watch event then throw .unobserved

def pushEdge (e : Edge) : Action Unit :=
  modify fun s => { s with edges := s.edges.push e }

/-- The fact of a φ-node as things stand. -/
def evalPhi (phi : Value) : Action Fact := do need ((← get).phiFact? phi)

/-- The fact of an instruction. A jump also queues its edge. -/
def transfer (t : Task) (v : Value) : Action Fact :=
  match v.op.rule? with
  | some fact => do
    if v.op = .jmp then pushEdge ⟨v.block, ← need v.targets.head?⟩
    return fact
  | none =>
    match t.options.target with
    | some target => do
      if target.supports v.op then
        throw (.unhandled t.func.name (← need (t.func.valueName? v.id)) v.op target.name)
      return Fact.bottom
    | none => return Fact.bottom

def eval (t : Task) (v : Value) : Action Fact := do
  t.emit (.eval v.id)
  if v.isPhi then
    modify fun s => { s with stats.phiEvals := s.stats.phiEvals + 1 }
    evalPhi v
  else
    modify fun s => { s with stats.instrEvals := s.stats.instrEvals + 1 }
    t.transfer v

/-- Queues a user unless it is queued already. Users in blocks that are not reachable yet are
evaluated when their block is first visited. -/
def schedule (u : Use) : Action Unit :=
  modify fun s =>
    if s.isReachable u.block && !s.pending.contains u.user then
      { s with pending := s.pending.insert u.user, ready := s.ready.push u.user }
    else s

/-- Stores a fact for a value and, if that is a change, queues the users of the value. -/
def update (t : Task) (id : ValueId) (fact : Fact) : Action Unit := do
  let old ← need ((← get).fact? id)
  if old = fact then return
  let v ← need (t.func.value? id)
  let name ← need (t.func.valueName? id)
  if t.options.checkMonotonic then
    match Fact.lattice.checkDescent (t.func.name ++ "." ++ name) old fact with
    | .error fault => throw (.lattice fault)
    | .ok () => pure ()
  modify fun s => { s with
    facts := s.facts.set id.toNat fact
    stats.updates := s.stats.updates + 1 }
  t.emit (.update id name old fact)
  v.uses.forM schedule

/-- Evaluates a value and stores its fact. -/
def visitValue (t : Task) (id : ValueId) : Action Unit := do
  let v ← need (t.func.value? id)
  t.update id (← t.eval v)

/-- Evaluates an instruction of a block that was reached for the first time. -/
def visitInstr (t : Task) (b : Block) (id : ValueId) : Action Unit := do
  let v ← need (t.func.value? id)
  t.update id (← t.eval v)
  if v.op = .br && t.options.branchSuccessors then
    v.targets.forM fun target => pushEdge ⟨b.id, target⟩

/-- Marks an edge as visited and says whether its destination is new. -/
def enter (e : Edge) : Action Bool := do
  let s ← get
  let first := !s.isReachable e.dst
  set { s with
    visited := e :: s.visited
    reachable := s.reachable.insert e.dst
    stats.edgesVisited := s.stats.edgesVisited + 1
    stats.blocksReached := if first then s.stats.blocksReached + 1 else s.stats.blocksReached }
  return first

/-- Visits an edge, unless that was done before. The φ-nodes of its destination may change even if
the block was reached before. -/
def visitEdge (t : Task) (e : Edge) : Action Unit := do
  if (← get).isVisited e then return
  let first ← enter e
  t.emit (.edge e first)
  let b ← need (t.func.block? e.dst)
  b.phis.forM t.visitValue
  if first then b.instrs.forM (t.visitInstr b)

/-- Takes an edge from its queue. -/
def popEdge (t : Task) : Action Edge := do
  match (← get).edges.pop? t.options.order with
  | none => throw .emptyQueue
  | some (e, rest) =>
    modify fun s => { s with edges := rest }
    return e

/-- Takes a value from its queue. -/
def popValue (t : Task) : Action ValueId := do
  match (← get).ready.pop? t.options.order with
  | none => throw .emptyQueue
  | some (id, rest) =>
    modify fun s => { s with ready := rest, pending := s.pending.erase id }
    return id

/-- Which queue is being emptied. -/
inductive Phase where
  | edges
  | values
  deriving DecidableEq, Repr

/-- One step of the main loop, and the phase to go on with, if any. -/
def step (t : Task) : Phase → Action (Option Phase)
  | .edges => do
    if (← get).edges.isEmpty then return some .values
    t.visitEdge (← t.popEdge)
    return some .edges
  | .values => do
    if (← get).ready.isEmpty then
      return if (← get).edges.isEmpty then none else some .edges
    t.visitValue (← t.popValue)
    return some .values

/-- At most `limit` steps of the main loop. -/
def loop (t : Task) : Nat → Phase → Action Unit
  | 0, _ => throw .unsettled
  | limit + 1, phase => do
    match ← t.step phase with
    | none => return
    | some phase => t.loop limit phase

def entryEdge (t : Task) : Edge := ⟨noBlock, t.func.entry⟩

/-- Visits everything that can be reached from the entry, in at most `limit` steps. -/
def run (t : Task) (limit : Nat) : Action Unit := do
  t.emit (.start t.func.blocks.length t.func.values.length)
  pushEdge t.entryEdge
  t.loop limit .edges
  t.emit (.done (← get).stats)

/-- The outcome of an analysis of at most `limit` steps. -/
def analyze (t : Task) (limit : Nat) : Outcome :=
  match (t.run limit).run (State.initial t.func) with
  | .ok () s => ⟨none, s⟩
  | .error e s => ⟨some e, s⟩

/-- A limit for runs that need one: when facts are not checked they may rise and fall for ever. -/
def stepLimit : Nat := 1000000

end Task

/-- A limit that no run in which facts only descend gets to, however large the function is. -/
def Func.limit (fn : Func) : Nat :=
  let items := fn.values.foldl (fun n v => n + v.targets.length + 2 * v.uses.length) 0
  Task.stepLimit + 2 * items

end TypeFlow
