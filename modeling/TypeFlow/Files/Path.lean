import TypeFlow.Text

/-! Paths, taken apart and put together as texts, without a look at any file. -/

namespace TypeFlow.Path

def slash : UInt8 := Text.ascii '/'

def isAbsolute (path : Text) : Bool := path.head? == some slash

/-- Adds a part to the parts of a clean path, the last of which comes first. -/
def push (absolute : Bool) (parts : List Text) (part : Text) : List Text :=
  if part = [] || part = "." then parts
  else if part = ".." then
    match parts with
    | [] => if absolute then [] else [part]
    | top :: below => if top = ".." then part :: parts else below
  else part :: parts

/-- The parts of a path, without empty ones, single dots, and names with two dots behind them. -/
def cleanParts (path : Text) : List Text :=
  ((Text.split slash path).foldl (push (isAbsolute path)) []).reverse

/-- The shortest path that says the same. -/
def clean (path : Text) : Text :=
  let joined := Text.join "/" (cleanParts path)
  if isAbsolute path then "/" ++ joined else if joined.isEmpty then "." else joined

/-- A clean path made of the parts that are not empty. -/
def join (a b : Text) : Text :=
  match [a, b].filter (!·.isEmpty) with
  | [] => []
  | parts => clean (Text.join "/" parts)

/-- The path of the folder that a path is in: the clean form of all up to the last slash. -/
def parent (path : Text) : Text := clean (path.reverse.dropWhile (· != slash)).reverse

/-- What follows the last slash. -/
def lastPart (path : Text) : Text := (path.reverse.takeWhile (· != slash)).reverse

/-- The last part of a path from its last dot on, if it has one. -/
def extension (path : Text) : Text :=
  let name := (lastPart path).reverse
  if name.contains (Text.ascii '.') then
    "." ++ (name.takeWhile (· != Text.ascii '.')).reverse
  else []

/-- A clean absolute path, where `home` is the working folder. -/
def absolute (home path : Text) : Text := if isAbsolute path then clean path else join home path

end TypeFlow.Path
