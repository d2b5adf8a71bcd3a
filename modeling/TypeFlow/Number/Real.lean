import TypeFlow.Number.Binary64
import TypeFlow.Number.Integer

/-! Numerals of 64-bit floats: decimal, hexadecimal with a binary exponent, and the names of the
infinities and of "not a number". -/

namespace TypeFlow.Number.Real

/-- The digits of a numeral up to its exponent: their value in the base, and how many of them stand
behind the point. -/
structure Mantissa where
  value : Nat
  places : Nat
  sawPoint : Bool
  sawDigits : Bool
  deriving DecidableEq, Repr

/-- Reads digits, at most one point and separators as far as they go. -/
def readMantissa (base : Nat) : Mantissa → Text → Mantissa × Text
  | m, [] => (m, [])
  | m, c :: rest =>
    if c = Text.ascii '_' then readMantissa base m rest
    else if c = Text.ascii '.' then
      if m.sawPoint then (m, c :: rest)
      else readMantissa base { m with sawPoint := true } rest
    else
      match digit? c with
      | some d =>
        if d < base then
          readMantissa base
            { m with
              value := m.value * base + d
              places := if m.sawPoint then m.places + 1 else m.places
              sawDigits := true } rest
        else (m, c :: rest)
      | none => (m, c :: rest)

/-- Reads the digits of an exponent. From ten thousand on further digits change nothing: the number
is out of every range by then. -/
def readExponent : Nat → Text → Nat × Text
  | e, [] => (e, [])
  | e, c :: rest =>
    if c = Text.ascii '_' then readExponent e rest
    else if Text.isDigit c then
      readExponent (if e < 10000 then e * 10 + (c.toNat - 48) else e) rest
    else (e, c :: rest)

/-- An exponent with an optional sign, which must start with a digit. -/
def signedExponent? (t : Text) : Option (Int × Text) :=
  let digits := dropSign t
  if digits.head?.any Text.isDigit then
    let (e, rest) := readExponent 0 digits
    some (if t.head? == some (Text.ascii '-') then -e else e, rest)
  else none

/-- The exponent after the mark `mark`, and the rest. Hexadecimal numerals must have one. -/
def exponent? (mark : UInt8) (needed : Bool) : Text → Option (Int × Text)
  | c :: rest =>
    if Text.lower c = mark then signedExponent? rest
    else if needed then none else some (0, c :: rest)
  | [] => if needed then none else some (0, [])

/-- The magnitude of an unsigned numeral that is used up to its end. -/
def magnitude? (t : Text) : Option Nat :=
  let start : Mantissa := ⟨0, 0, false, false⟩
  match t with
  | 0x30 :: x :: c :: rest =>
    if Text.lower x = Text.ascii 'x' then
      let (m, rest) := readMantissa 16 start (c :: rest)
      if m.sawDigits then
        match exponent? (Text.ascii 'p') true rest with
        | some (e, []) => some (Binary64.ofScaled 2 m.value (e - 4 * m.places))
        | _ => none
      else none
    else decimal? start t
  | _ => decimal? start t
where
  decimal? (start : Mantissa) (t : Text) : Option Nat :=
    let (m, rest) := readMantissa 10 start t
    if m.sawDigits then
      match exponent? (Text.ascii 'e') false rest with
      | some (e, []) => some (Binary64.ofScaled 10 m.value (e - m.places))
      | _ => none
    else none

/-- The names of infinity, in small letters. -/
def isInfinity (t : Text) : Bool := t = "inf" || t = "infinity"

end Real

/-- Reads a 64-bit float, giving its bits. -/
def readFloat (t : Text) : Except Fault UInt64 :=
  let sign : Nat := if t.head? == some (Text.ascii '-') then 1 <<< 63 else 0
  let unsigned := dropSign t
  let name := unsigned.map fun c => if Text.isLetter c then Text.lower c else c
  if Real.isInfinity name then .ok (sign + Binary64.infinity).toUInt64
  else if name = "nan" && unsigned.length = t.length then .ok Binary64.nan
  else
    match Real.magnitude? unsigned with
    | none => .error .malformed
    | some mag =>
      if t.contains (Text.ascii '_') && !separatorsOk t then .error .malformed
      else if Binary64.infinity ≤ mag then .error .outOfRange
      else .ok (sign + mag).toUInt64

end TypeFlow.Number
