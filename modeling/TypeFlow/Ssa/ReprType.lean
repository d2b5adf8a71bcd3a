import TypeFlow.Text

/-! The representation types of values. A function literal may hold a type code that names no type.
-/

namespace TypeFlow

inductive ReprType where
  | void
  | i32
  | f64
  /-- A pointer to a managed object. -/
  | ref
  /-- An untraced machine pointer. -/
  | ptr
  /-- The type of comparison results and of the boolean literals. -/
  | const
  | unknown (code : UInt8)
  deriving DecidableEq, Repr

namespace ReprType

/-- The types that have a name, by code. -/
def named : List ReprType := [void, i32, f64, ref, ptr, const]

def code : ReprType → UInt8
  | void => 0
  | i32 => 1
  | f64 => 2
  | ref => 3
  | ptr => 4
  | const => 5
  | unknown code => code

def ofCode (code : UInt8) : ReprType := named[code.toNat]?.getD (unknown code)

def text : ReprType → Text
  | void => "void"
  | i32 => "i32"
  | f64 => "f64"
  | ref => "ref"
  | ptr => "ptr"
  | const => "const"
  | unknown code => "Type(" ++ Text.ofNat code.toNat ++ ")"

def ofName? (name : Text) : Option ReprType := named.find? (·.text == name)

end ReprType

end TypeFlow
