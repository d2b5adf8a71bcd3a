/-! Text as bytes. Names and sources come from outside and need not be valid UTF-8, so a text is a
list of bytes, and a string literal stands for its UTF-8 encoding. -/

namespace TypeFlow

abbrev Text := List UInt8

namespace Text

def ofString (s : String) : Text := s.toUTF8.data.toList

instance : Coe String Text := ⟨ofString⟩

/-- The byte of an ASCII character. -/
abbrev ascii (c : Char) : UInt8 := c.toUInt8

/-- The numeral of `n` in `base`, without leading zeros and with lower-case digits. -/
def numeral (base n : Nat) : Text := (Nat.toDigits base n).map ascii

def ofNat (n : Nat) : Text := numeral 10 n

def ofInt : Int → Text
  | .ofNat n => ofNat n
  | .negSucc n => "-" ++ ofNat (n + 1)

def ofBool (b : Bool) : Text := if b then "true" else "false"

/-- Pads on the left to at least `width` bytes. -/
def padLeft (pad : UInt8) (width : Nat) (t : Text) : Text :=
  List.replicate (width - t.length) pad ++ t

def join (sep : Text) (parts : List Text) : Text := List.intercalate sep parts

def isDigit (c : UInt8) : Bool := ascii '0' ≤ c && c ≤ ascii '9'

def isLetter (c : UInt8) : Bool :=
  ascii 'a' ≤ c && c ≤ ascii 'z' || ascii 'A' ≤ c && c ≤ ascii 'Z'

/-- Maps an ASCII capital to its small letter and may change any byte that is no letter. -/
def lower (c : UInt8) : UInt8 := c ||| 0x20

/-- Cuts a text at its first `sep`, which is dropped. -/
def cut? (sep : UInt8) : Text → Option (Text × Text)
  | [] => none
  | c :: rest =>
    if c = sep then some ([], rest)
    else (cut? sep rest).map fun (before, after) => (c :: before, after)

/-- The part of a text before its first `sep`. -/
def before (sep : UInt8) (t : Text) : Text := t.takeWhile (· != sep)

/-- The parts between separators, of which there is one more than there are separators. `part` is
the part read so far, its last byte first. -/
def splitFrom (sep : UInt8) (part : Text) : Text → List Text
  | [] => [part.reverse]
  | c :: rest =>
    if c = sep then part.reverse :: splitFrom sep [] rest else splitFrom sep (c :: part) rest

def split (sep : UInt8) (t : Text) : List Text := splitFrom sep [] t

/-- The text without `suffix` at its end. -/
def dropSuffix? (suffix t : Text) : Option Text :=
  if suffix.isSuffixOf t then some (t.take (t.length - suffix.length)) else none

/-- Ordering by bytes. -/
def le (a b : Text) : Bool := decide (a ≤ b)

end Text

end TypeFlow
