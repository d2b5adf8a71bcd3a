import TypeFlow.Number.Real
import TypeFlow.Text.Rune
import TypeFlow.Toml.Moment
import TypeFlow.Toml.Quoted

/-! Numbers and points in time. As many characters are taken as can belong to one, and then it is
checked whether they make one up. -/

namespace TypeFlow.Toml.Numeral

def isPart (c : Char) : Bool := c.isDigit || c = '_'

def isFloatPart (c : Char) : Bool := isPart c || ".-+eE".toList.contains c

/-- Whether every underscore follows a digit, which may be hexadecimal, and the last character is
one. -/
def underscoresOk : Bool → List Char → Bool
  | digit, [] => digit
  | digit, c :: cs => (c != '_' || digit) && underscoresOk (isHex c) cs

/-- Whether there is a zero in front of other digits. With a sign, nothing at all may follow a
zero. -/
def leadingZero : List Char → Bool
  | '0' :: c :: _ => c.isDigit
  | sign :: '0' :: _ :: _ => sign = '+' || sign = '-'
  | _ => false

/-- Whether every point is followed by a digit. -/
def pointsOk : List Char → Bool
  | [] => true
  | ['.'] => false
  | '.' :: c :: cs => c.isDigit && pointsOk (c :: cs)
  | _ :: cs => pointsOk cs

def succeeds {ε α : Type} : Except ε α → Bool
  | .ok _ => true
  | .error _ => false

/-- Goes on behind what was taken for a value, if it is one. -/
def accept (ok : Bool) (v : Value) (rest : List Char) : Except Fault (Value × List Char) :=
  if ok then .ok (v, rest) else .error .malformed

/-- Goes on behind an integer. The character behind it has to be decoded to find its end. -/
def integer (taken rest : List Char) : Except Fault (Value × List Char) :=
  let form := underscoresOk false taken && !leadingZero taken && rest.head? != some undecoded
  match form, Number.readInt 64 (Text.ofChars taken) with
  | true, .error .malformed => .error (.crash (.numeral (Text.ofChars taken)))
  | form, n => accept (form && succeeds n) .number rest

/-- The parts between points and exponent marks. -/
def floatParts (cs : List Char) : List (List Char) :=
  (cs.splitOnP fun c => c = '.' || c = 'e' || c = 'E').filter (!·.isEmpty)

def isFloat (cs : List Char) : Bool :=
  let parts := floatParts cs
  parts.all (underscoresOk false) && !(parts.head?.any leadingZero) && pointsOk cs
    && succeeds (Number.readFloat (Text.ofChars (cs.filter (· != '_'))))

/-- A decimal number behind what was taken of it. -/
def decimal (taken : List Char) : Reader Value := fun cs =>
  let digits := cs.takeWhile isPart
  let rest := cs.dropWhile isPart
  if rest.head?.any fun c => c = '.' || c = 'e' || c = 'E' then
    accept (isFloat (taken ++ digits ++ rest.takeWhile isFloatPart)) .number
      (rest.dropWhile isFloatPart)
  else integer (taken ++ digits) rest

/-- The digits that a letter behind a leading zero announces. -/
def radix? : Char → Option (Char → Bool)
  | 'x' => some isHex
  | 'o' => some fun c => '0' ≤ c && c ≤ '7'
  | 'b' => some fun c => c = '0' || c = '1'
  | _ => none

/-- A number with a base marker, from behind it. -/
def based (marker : Char) (isDigit : Char → Bool) : Reader Value := fun cs =>
  let ok (c : Char) : Bool := isDigit c || c = '_'
  if cs.head?.any isDigit then integer ('0' :: marker :: cs.takeWhile ok) (cs.dropWhile ok)
  else .error .malformed

/-- A number or a point in time that starts with a digit. -/
def plain : Reader Value := fun cs =>
  let digits := cs.takeWhile Char.isDigit
  let next := cs[digits.length]?
  if next.any (fun c => c = '-' || c = ':') && digits != ['0'] then
    accept (Moment.accepts (dropRight (· = ' ') (cs.takeWhile Moment.isMark))) .moment
      (cs.dropWhile Moment.isMark)
  else decimal [] cs

def unsigned : Reader Value := fun
  | '0' :: marker :: cs =>
    match radix? marker with
    | some isDigit => based marker isDigit cs
    | none => plain ('0' :: marker :: cs)
  | cs => plain cs

/-- A number from behind its sign. -/
def signed (sign : Char) : Reader Value := fun
  | 'i' :: 'n' :: 'f' :: cs => .ok (.number, cs)
  | 'n' :: 'a' :: 'n' :: cs => .ok (.number, cs)
  | cs => if cs.head?.any Char.isDigit then decimal [sign] cs else .error .malformed

end TypeFlow.Toml.Numeral
