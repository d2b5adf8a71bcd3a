import TypeFlow.Text

/-! What programs say about their version and about the modules they are built from. -/

namespace TypeFlow.Version

/-- The version of a program that was built from no release. -/
def text (program : Text) : Text := program ++ " (no version)"

def line (program : Text) : Text := text program ++ "\n"

structure Module where
  path : Text
  version : Text
  sum : Text
  replacement : Option Text
  deriving DecidableEq, Repr

namespace Module

def versionText (m : Module) : Text := if m.version = "(devel)" then [] else "@" ++ m.version

def sumText (m : Module) : Text := if m.sum.isEmpty then [] else " (sum: " ++ m.sum ++ ")"

def replacementText (m : Module) : Text :=
  match m.replacement with
  | some path => " (replace: " ++ path ++ ")"
  | none => []

def line (m : Module) : Text :=
  "\t" ++ m.path ++ m.versionText ++ m.sumText ++ m.replacementText ++ "\n"

end Module

end TypeFlow.Version
