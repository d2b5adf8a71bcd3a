import TypeFlow.Command

/-! The program: it looks at real files and writes what a run says. -/

namespace TypeFlow

/-- Why a file could not be opened. -/
def causeOf : IO.Error → Files.Cause
  | .inappropriateType .. => .notFolder
  | .invalidArgument _ 36 _ => .tooLong
  | .invalidArgument .. => .invalid
  | _ => .missing

/-- What an open file holds. A folder can be opened but not read. -/
def readOpen (handle : IO.FS.Handle) : IO Files.Entry := do
  try
    return .file (← handle.readBinToEnd).data.toList
  catch _ => return .folder

def lookAtDisk : Files.Look IO := fun path =>
  match String.fromUTF8? ⟨path.toArray⟩ with
  | none => return .error .missing
  | some name => do
    try
      return .ok (← readOpen (← IO.FS.Handle.mk name .read))
    catch e => return .error (causeOf e)

def write (stream : IO.FS.Stream) (t : Text) : IO Unit := do
  stream.write ⟨t.toArray⟩
  stream.flush

end TypeFlow

open TypeFlow in
def main (arguments : List String) : IO UInt32 := do
  let home := Text.ofString (← IO.currentDir).toString
  let terminal := (← (← IO.getStdout).isTty) && (← IO.getEnv "NO_COLOR").isNone
  let result ← Command.run lookAtDisk home terminal (arguments.map Text.ofString)
  write (← IO.getStdout) result.out
  write (← IO.getStderr) result.err
  match result.status with
  | some status => return status.toUInt32
  | none =>
    write (← IO.getStderr) (Command.logged "the analysis does not settle")
    return 3
