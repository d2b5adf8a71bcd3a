import TypeFlow.Text.Quoted

/-! Bounded meet-semilattices. `meet` is asked only for two distinct elements that are neither the
greatest nor the least; the other cases follow from the laws. -/

namespace TypeFlow

structure Lattice (α : Type) where
  top : α
  bottom : α
  meet : α → α → α

namespace Lattice

variable {α : Type}

inductive Fault (α : Type) where
  /-- The greatest and the least element are the same. -/
  | degenerate
  /-- `new` does not lie below `old`. -/
  | ascent (what : Text) (old new meet : α)
  deriving DecidableEq, Repr

/-- The text of a fault, given the text of an element. -/
def Fault.message (text : α → Text) : Fault α → Text
  | degenerate => "lattice's ⊤ and ⊥ are identical; did you forget to specify them?"
  | ascent what old new meet =>
    "transfer function isn't monotonic; " ++ what ++ ": " ++ text old ++ " -> " ++ text new
      ++ "; meet(" ++ text old ++ ", " ++ text new ++ ") = " ++ text meet

variable [DecidableEq α]

/-- The greatest lower bound of two elements. -/
def glb (l : Lattice α) (a b : α) : α :=
  if a = l.bottom ∨ b = l.bottom then l.bottom
  else if a = l.top then b
  else if b = l.top then a
  else if a = b then a
  else l.meet a b

def apply (l : Lattice α) (a b : α) : Except (Fault α) α :=
  if l.top = l.bottom then .error .degenerate else .ok (l.glb a b)

/-- Whether `new` lies below `old` or is the same. -/
def descends (l : Lattice α) (old new : α) : Except (Fault α) Bool :=
  (l.apply old new).map (· == new)

/-- Fails when `new` does not lie below `old`; `what` says what has these values. -/
def checkDescent (l : Lattice α) (what : Text) (old new : α) : Except (Fault α) Unit :=
  if old = new then .ok ()
  else
    match l.apply old new with
    | .error e => .error e
    | .ok meet => if meet = new then .ok () else .error (.ascent what old new meet)

/-- The node of the element `x`, number `i`. -/
def drawNode (text : α → Text) (x : α × Nat) : Text :=
  "n" ++ Text.ofNat x.2 ++ " [label=" ++ (text x.1).quoted ++ "]\n"

/-- An arrow between numbered nodes. -/
def arrow (i j : Nat) : Text := "n" ++ Text.ofNat i ++ " -> n" ++ Text.ofNat j ++ "\n"

/-- The edge from the element `x`, number `i`, to the element `y`, number `j`, if `x` lies below
`y`. -/
def drawEdge (l : Lattice α) (x : α × Nat) (y : α × Nat) : Except (Fault α) Text :=
  if x.2 = y.2 then .ok []
  else
    (l.apply x.1 y.1).map fun meet => if meet = x.1 then arrow x.2 y.2 else []

/-- A directed graph of the order on some elements, in the language of Graphviz. -/
def draw (l : Lattice α) (text : α → Text) (states : List α) : Except (Fault α) Text := do
  let numbered := states.zipIdx
  let nodes := numbered.map (drawNode text)
  let edges ← (numbered.flatMap fun x => numbered.map (x, ·)).mapM fun (x, y) => l.drawEdge x y
  return "digraph\x7b\nrankdir=\"BT\"\n" ++ nodes.flatten ++ edges.flatten ++ "\x7d"

end Lattice

end TypeFlow
