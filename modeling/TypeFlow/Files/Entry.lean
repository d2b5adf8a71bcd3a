import TypeFlow.Files.Path

/-! What a path leads to, and how it can fail to lead anywhere. -/

namespace TypeFlow.Files

inductive Entry where
  | file (content : Text)
  | folder
  deriving DecidableEq, Repr

inductive Cause where
  | missing
  | notFolder
  | isFolder
  | invalid
  | tooLong
  deriving DecidableEq, Repr

def Cause.message : Cause → Text
  | missing => "no such file or directory"
  | notFolder => "not a directory"
  | isFolder => "is a directory"
  | invalid => "invalid argument"
  | tooLong => "file name too long"

/-- A look at a path, in some monad. -/
abbrev Look (m : Type → Type) := Text → m (Except Cause Entry)

inductive Attempt where
  | opening
  | reading
  deriving DecidableEq, Repr

structure Error where
  attempt : Attempt
  path : Text
  cause : Cause
  deriving DecidableEq, Repr

def Error.message (e : Error) : Text :=
  let verb : Text := match e.attempt with
    | .opening => "open "
    | .reading => "read "
  verb ++ e.path ++ ": " ++ e.cause.message

/-- The content of the file at a path. -/
def read {m : Type → Type} [Monad m] (look : Look m) (path : Text) : ExceptT Error m Text := do
  match ← look path with
  | .ok (.file content) => return content
  | .ok .folder => throw ⟨.reading, path, .isFolder⟩
  | .error cause => throw ⟨.opening, path, cause⟩

end TypeFlow.Files
