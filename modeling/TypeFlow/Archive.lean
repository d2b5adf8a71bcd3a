import TypeFlow.Text.Trim

/-! Archives of text files. A line `-- NAME --` starts a file, which goes on to the next such line.
What comes before the first is a comment. -/

namespace TypeFlow.Archive

structure Member where
  name : Text
  content : Text
  deriving DecidableEq, Repr

/-- The name on a line that starts a file. -/
def marker? (line : Text) : Option Text :=
  let name := Text.trim ((line.drop 3).take (line.length - 6))
  if line.length < 6 || line.take 3 != "-- " || line.drop (line.length - 3) != " --" then none
  else if name.isEmpty then none
  else some name

/-- The lines of a text, of which the last need not be ended. -/
def lines (t : Text) : List Text :=
  let parts := Text.split (Text.ascii '\n') t
  if parts.getLast? == some [] then parts.dropLast else parts

def ended (line : Text) : Text := line ++ "\n"

/-- The members that start on these lines, and the lines before the first of them. -/
def parts : List Text → List Text × List Member
  | [] => ([], [])
  | line :: rest =>
    let (before, members) := parts rest
    match marker? line with
    | some name => ([], ⟨name, (before.map ended).flatten⟩ :: members)
    | none => (line :: before, members)

/-- The files of an archive. Every line of them is ended, also the last. -/
def members (t : Text) : List Member := (parts (lines t)).2

end TypeFlow.Archive
