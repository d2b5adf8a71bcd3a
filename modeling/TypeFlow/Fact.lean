import TypeFlow.Lattice
import TypeFlow.Ssa.ReprType

/-! What the analysis knows about a value: nothing yet, that it is a known boolean, that it has a
known type, or that no single fact holds of it. Distinct facts meet in the last. -/

namespace TypeFlow

namespace Fact

inductive Kind where
  | top
  | bool
  | type
  | bottom
  | unknown (code : UInt8)
  deriving DecidableEq, Repr

def Kind.ofCode (code : UInt8) : Kind :=
  [top, bool, type, bottom][code.toNat]?.getD (unknown code)

end Fact

/-- A fact of a kind, with the boolean and the type that facts of this kind are about. Two facts are
the same only when they agree on all three. -/
structure Fact where
  kind : Fact.Kind
  flag : Bool
  type : ReprType
  deriving DecidableEq, Repr

namespace Fact

def top : Fact := ⟨.top, false, .void⟩

def bottom : Fact := ⟨.bottom, false, .void⟩

def ofBool (b : Bool) : Fact := ⟨.bool, b, .void⟩

def ofType (t : ReprType) : Fact := ⟨.type, false, t⟩

def text (f : Fact) : Text :=
  match f.kind with
  | .top => "⊤"
  | .bool => Text.ofBool f.flag
  | .type => f.type.text
  | .bottom => "⊥"
  | .unknown code => "TypeVal(" ++ Text.ofNat code.toNat ++ ")"

/-- How far a fact lies below `top`. -/
def height (f : Fact) : Nat :=
  match f.kind with
  | .top => 0
  | .bottom => 2
  | _ => 1

def lattice : Lattice Fact := ⟨top, bottom, fun _ _ => bottom⟩

def meet (a b : Fact) : Fact := lattice.glb a b

/-- The facts that can arise, `top` first and `bottom` last. -/
def states : List Fact :=
  [top, ofBool true, ofBool false, ofType .i32, ofType .f64, ofType .ref, ofType .ptr,
   ofType .const, bottom]

end Fact

end TypeFlow
