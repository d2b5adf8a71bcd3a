import TypeFlow.Text

/-! The parts of a configuration text in TOML. Settings are texts, truth values and lists of texts,
so numbers and points in time are only known to be there. -/

namespace TypeFlow.Toml

/-- The parts of a key, which dots join. -/
abbrev Key := List Text

def Key.text (key : Key) : Text := Text.join "." key

inductive Value where
  | text (t : Text)
  | flag (b : Bool)
  | number
  | moment
  | list (elements : List Value)
  | table (fields : List (Text × Value))
  /-- Tables that headers of their own add one by one. Only the last is kept. -/
  | tables (last : List (Text × Value))

def Value.isList : Value → Bool
  | list _ => true
  | _ => false

/-- What a table holds, each name once. -/
abbrev Fields := List (Text × Value)

/-- What looks sound until its value is worked out. It ends the run on the spot. -/
inductive Crash where
  /-- Digits behind `0_` are octal, and one of these is not. -/
  | numeral (t : Text)
  /-- A backslash before a carriage return that ends no line. -/
  | escape
  /-- What could not be decoded, right behind an empty text on several lines that starts there. The
  place is counted in characters from the end while a document is read, and then in bytes. -/
  | bounds (start : Nat)
  deriving DecidableEq, Repr

def Crash.message : Crash → Text
  | numeral t => "BUG: Expected integer value, but got '" ++ t ++ "'.\n\n"
  | escape => "BUG: Expected valid escape code after \\, but got '\\r'.\n\n"
  | bounds start =>
    "runtime error: slice bounds out of range [" ++ Text.ofNat start ++ ":"
      ++ Text.ofNat (start - 1) ++ "]"

/-- Why a text is no document. What is malformed in it is not told apart. -/
inductive Fault where
  | malformed
  | crash (c : Crash)
  deriving DecidableEq, Repr

/-- Takes what it reads from the front of a text. -/
abbrev Reader := StateT (List Char) (Except Fault)

def isBlank (c : Char) : Bool := c = ' ' || c = '\t'

def isBreak (c : Char) : Bool := c = '\n' || c = '\r'

/-- The character that stands for what could not be decoded. -/
def undecoded : Char := '\ufffd'

/-- What is allowed nowhere: control characters other than tabs and line breaks, and what could not
be decoded. -/
def isForbidden (c : Char) : Bool :=
  c.toNat < 0x20 && !isBreak c && c != '\t' || c = '\x7f' || c = undecoded

end TypeFlow.Toml
