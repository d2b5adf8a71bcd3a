import TypeFlow.Number.Real
import TypeFlow.Number.Shortest
import TypeFlow.Ssa.ReprType
import TypeFlow.Text.Quoted

/-! Literal operands: a type and 64 bits, which hold the two's complement value of an integer, the
encoding of a float, or an address. -/

namespace TypeFlow

structure Literal where
  type : ReprType
  bits : UInt64
  deriving DecidableEq, Repr

namespace Literal

/-- The boolean literals are the constants one and zero. -/
def ofBool (b : Bool) : Literal := ⟨.const, if b then 1 else 0⟩

/-- The literal of an integer, reduced to 32 bits. -/
def ofInt (x : Int) : Literal := ⟨.i32, (x % 0x100000000).toNat.toUInt64⟩

/-- The low 32 bits as a signed integer. -/
def toInt32 (bits : UInt64) : Int := Int.bmod bits.toNat 0x100000000

def text (c : Literal) : Text :=
  if c = ofBool true then "true"
  else if c = ofBool false then "false"
  else
    match c.type with
    | .i32 => "i32:" ++ Text.ofInt (toInt32 c.bits)
    | .f64 => "f64:" ++ Number.floatText c.bits
    | .ref => "ref:0x" ++ Text.numeral 16 c.bits.toNat
    | .ptr => "ptr:0x" ++ Text.numeral 16 c.bits.toNat
    | type => type.text ++ ":" ++ Text.ofNat c.bits.toNat

/-- Why a text is no literal. `text` is the whole of it, `numeral` the part behind the colon. -/
inductive Fault where
  | malformed (text : Text)
  | void (text : Text)
  | number (type : ReprType) (text numeral : Text) (cause : Number.Fault)
  deriving DecidableEq, Repr

namespace Fault

/-- What the numerals of a type are read as. -/
def reader : ReprType → Text
  | .i32 => "ParseInt"
  | .f64 => "ParseFloat"
  | _ => "ParseUint"

def message : Fault → Text
  | malformed text => "malformed literal " ++ text.quoted
  | void text => "literal " ++ text.quoted ++ " has type void"
  | number type text numeral cause =>
    "malformed " ++ type.text ++ " literal " ++ text.quoted ++ ": strconv." ++ reader type
      ++ ": parsing " ++ numeral.quoted ++ ": " ++ cause.message

end Fault

/-- The bits of a numeral of a type other than `void`. -/
def readBits (type : ReprType) (numeral : Text) : Except Number.Fault UInt64 :=
  match type with
  | .i32 => (Number.readInt 32 numeral).map fun x => (ofInt x).bits
  | .f64 => Number.readFloat numeral
  | _ => (Number.readNat 64 numeral).map Nat.toUInt64

/-- Reads `true`, `false`, or a type and a numeral with a colon between them. -/
def read (t : Text) : Except Fault Literal :=
  if t = "true" then .ok (ofBool true)
  else if t = "false" then .ok (ofBool false)
  else
    match (t.cut? (Text.ascii ':')).bind fun (name, numeral) =>
        (ReprType.ofName? name).map (·, numeral) with
    | none => .error (.malformed t)
    | some (type, numeral) =>
      if numeral.isEmpty then .error (.malformed t)
      else if type = .void then .error (.void t)
      else
        match readBits type numeral with
        | .ok bits => .ok ⟨type, bits⟩
        | .error cause => .error (.number type t numeral cause)

end Literal

end TypeFlow
