import TypeFlow.Text

/-! Opcodes and what each takes and gives. -/

namespace TypeFlow

inductive Opcode where
  | invalid
  | nop
  /-- The function argument whose index is the operand. -/
  | arg
  | call
  | addI32 | subI32 | mulI32 | divI32 | andI32 | orI32 | notI32 | shlI32 | shrI32 | ushrI32
  | addF64 | subF64 | mulF64 | divF64
  | loadU8 | loadU16 | loadU32 | loadF64 | loadRef | loadPtr
  | storeI32 | storeF64 | storeRef | storePtr
  | jmp | br | ret
  | ltI32 | leI32 | gtI32 | geI32 | eqI32 | neI32
  | ltF64 | leF64 | gtF64 | geF64 | eqF64 | neF64
  | eqConst | eqRef
  /-- Whether a managed reference has the run-time type of the second operand. -/
  | isType
  | phi
  | unknown (code : UInt8)
  deriving DecidableEq, Repr

namespace Opcode

/-- The opcodes that have a name, by code. -/
def named : List Opcode :=
  [invalid, nop, arg, call,
   addI32, subI32, mulI32, divI32, andI32, orI32, notI32, shlI32, shrI32, ushrI32,
   addF64, subF64, mulF64, divF64,
   loadU8, loadU16, loadU32, loadF64, loadRef, loadPtr,
   storeI32, storeF64, storeRef, storePtr,
   jmp, br, ret,
   ltI32, leI32, gtI32, geI32, eqI32, neI32, ltF64, leF64, gtF64, geF64, eqF64, neF64,
   eqConst, eqRef, isType, phi]

/-- The valid opcodes, in ascending order of their codes. -/
def all : List Opcode := named.drop 1

def code : Opcode → UInt8
  | unknown code => code
  | op => (named.idxOf op).toUInt8

def ofCode (code : UInt8) : Opcode := named[code.toNat]?.getD (unknown code)

def text : Opcode → Text
  | invalid => "invalid"
  | nop => "nop"
  | arg => "arg"
  | call => "call"
  | addI32 => "add.i32"
  | subI32 => "sub.i32"
  | mulI32 => "mul.i32"
  | divI32 => "div.i32"
  | andI32 => "and.i32"
  | orI32 => "or.i32"
  | notI32 => "not.i32"
  | shlI32 => "shl.i32"
  | shrI32 => "shr.i32"
  | ushrI32 => "ushr.i32"
  | addF64 => "add.f64"
  | subF64 => "sub.f64"
  | mulF64 => "mul.f64"
  | divF64 => "div.f64"
  | loadU8 => "load.u8"
  | loadU16 => "load.u16"
  | loadU32 => "load.u32"
  | loadF64 => "load.f64"
  | loadRef => "load.ref"
  | loadPtr => "load.ptr"
  | storeI32 => "store.i32"
  | storeF64 => "store.f64"
  | storeRef => "store.ref"
  | storePtr => "store.ptr"
  | jmp => "jmp"
  | br => "br"
  | ret => "ret"
  | ltI32 => "lt.i32"
  | leI32 => "le.i32"
  | gtI32 => "gt.i32"
  | geI32 => "ge.i32"
  | eqI32 => "eq.i32"
  | neI32 => "ne.i32"
  | ltF64 => "lt.f64"
  | leF64 => "le.f64"
  | gtF64 => "gt.f64"
  | geF64 => "ge.f64"
  | eqF64 => "eq.f64"
  | neF64 => "ne.f64"
  | eqConst => "eq.const"
  | eqRef => "eq.ref"
  | isType => "istype"
  | phi => "phi"
  | unknown code => "Op(" ++ Text.ofNat code.toNat ++ ")"

/-- The valid opcode of a name. -/
def ofName? (name : Text) : Option Opcode := all.find? (·.text == name)

/-- Whether other instructions may use what the opcode computes. -/
def hasOutput : Opcode → Bool
  | invalid | nop | storeI32 | storeF64 | storeRef | storePtr | jmp | br | ret | unknown _ => false
  | _ => true

/-- How many blocks control may go to next; none for `ret`. -/
def targetCount : Opcode → Nat
  | jmp => 1
  | br => 2
  | _ => 0

def isTerminator (op : Opcode) : Bool := 0 < op.targetCount || op == ret

/-- How many operands the opcode takes, if their number is fixed. -/
def arity? : Opcode → Option Nat
  | invalid | nop | jmp | unknown _ => some 0
  | arg | notI32 | loadU8 | loadU16 | loadU32 | loadF64 | loadRef | loadPtr | br => some 1
  | call | ret | phi => none
  | _ => some 2

def isValid : Opcode → Bool
  | invalid | unknown _ => false
  | _ => true

theorem mem_all {op : Opcode} (h : op.isValid = true) : op ∈ all := by
  cases op <;> simp [isValid, all, named] at h ⊢

theorem isValid_of_mem_all {op : Opcode} (h : op ∈ all) : op.isValid = true := by
  have hall : ∀ op ∈ all, op.isValid = true := by decide
  exact hall op h

theorem ofName?_text {op : Opcode} (h : op.isValid = true) : ofName? op.text = some op := by
  have hall : ∀ op ∈ all, ofName? op.text = some op := by decide +kernel
  exact hall op (mem_all h)

/-- The text of an opcode is the name of no other. -/
theorem ofName?_eq_some_iff {name : Text} {op : Opcode} :
    ofName? name = some op ↔ op.isValid = true ∧ op.text = name := by
  constructor
  · intro h
    exact ⟨isValid_of_mem_all (List.mem_of_find?_eq_some h), by simpa using List.find?_some h⟩
  · rintro ⟨hvalid, rfl⟩
    exact ofName?_text hvalid

end Opcode

end TypeFlow
