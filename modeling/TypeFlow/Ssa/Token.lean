import TypeFlow.Text

/-! The tokens of a line: the four marks stand alone, and what lies between marks and blanks is one
token each. -/

namespace TypeFlow.Token

def isBlank (c : UInt8) : Bool :=
  c == Text.ascii ' ' || c == Text.ascii '\t' || c == Text.ascii '\r'

def isMark (c : UInt8) : Bool :=
  c == Text.ascii ',' || c == Text.ascii '[' || c == Text.ascii ']' || c == Text.ascii '='

/-- The token of a finished run, whose last byte comes first. -/
def ofRun (run : Text) : List Text := if run.isEmpty then [] else [run.reverse]

def splitFrom (run : Text) : Text → List Text
  | [] => ofRun run
  | c :: rest =>
    if isBlank c then ofRun run ++ splitFrom [] rest
    else if isMark c then ofRun run ++ [c] :: splitFrom [] rest
    else splitFrom (c :: run) rest

/-- The tokens of a line. -/
def split (line : Text) : List Text := splitFrom [] line

/-- The name in a label line: a single token of which a colon is the last byte, but not the only
one. -/
def label? : List Text → Option Text
  | [token] =>
    match Text.dropSuffix? ":" token with
    | some name => if name.isEmpty then none else some name
    | none => none
  | _ => none

def isNameStart (c : UInt8) : Bool := Text.isLetter c || c == Text.ascii '_'

def isNamePart (c : UInt8) : Bool := isNameStart c || Text.isDigit c || c == Text.ascii '.'

/-- Names of blocks and values: a letter or underscore, then letters, digits, underscores and
points; the boolean literals are no names. -/
def isName (t : Text) : Bool :=
  match t with
  | [] => false
  | c :: rest => isNameStart c && rest.all isNamePart && t != "true" && t != "false"

end TypeFlow.Token
