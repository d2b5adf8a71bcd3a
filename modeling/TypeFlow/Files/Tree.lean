import TypeFlow.Files.Entry

/-! Trees of files in memory. Paths are lists of names from the root; the folders on the way to a
file or a folder are there with it. -/

namespace TypeFlow.Files

structure Tree where
  home : List Text
  files : List (List Text × Text) := []
  folders : List (List Text) := []

namespace Tree

def isFolder (t : Tree) (path : List Text) : Bool :=
  (t.home :: t.folders ++ t.files.map (·.1.dropLast)).any fun p => path.isPrefixOf p

/-- The most bytes that a name can have. -/
def longestName : Nat := 255

/-- The most bytes that a path can have. -/
def longestPath : Nat := 4095

/-- Follows names from a folder. Single dots and empty names stay, two dots go up. -/
def follow (t : Tree) : List Text → List Text → Except Cause Entry
  | _, [] => .ok .folder
  | here, name :: rest =>
    if name = [] || name = "." then t.follow here rest
    else if name = ".." then t.follow here.dropLast rest
    else if longestName < name.length then .error .tooLong
    else
      let path := here ++ [name]
      match t.files.lookup path with
      | some content => if rest.isEmpty then .ok (.file content) else .error .notFolder
      | none => if t.isFolder path then t.follow path rest else .error .missing

def look (t : Tree) : Look Id := fun path =>
  if path.isEmpty then .error .missing
  else if path.contains 0 then .error .invalid
  else if longestPath < path.length then .error .tooLong
  else t.follow (if Path.isAbsolute path then [] else t.home) (Text.split Path.slash path)

end Tree

end TypeFlow.Files
