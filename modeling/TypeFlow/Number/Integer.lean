import TypeFlow.Text

/-! Integer numerals: an optional sign, an optional base marker and digits, between which single
underscores may stand. -/

namespace TypeFlow.Number

/-- Why a numeral has no value. -/
inductive Fault where
  | malformed
  | outOfRange
  deriving DecidableEq, Repr

def Fault.message : Fault → Text
  | malformed => "invalid syntax"
  | outOfRange => "value out of range"

/-- The value of a digit or letter, the letters following on the digits. -/
def digit? (c : UInt8) : Option Nat :=
  if Text.isDigit c then some (c.toNat - 48)
  else if Text.isLetter c then some ((Text.lower c).toNat - 87)
  else none

/-- What the byte before the current one was, as far as separators go. -/
inductive Previous where
  | start
  | digit
  | separator
  | other
  deriving DecidableEq, Repr

/-- Whether every underscore of the rest has a digit on both sides. -/
def separatorsOkFrom (hex : Bool) : Previous → Text → Bool
  | prev, [] => prev != .separator
  | prev, c :: rest =>
    if Text.isDigit c || hex && (digit? c).any (· < 16) then separatorsOkFrom hex .digit rest
    else if c = Text.ascii '_' then
      prev == .digit && separatorsOkFrom hex .separator rest
    else prev != .separator && separatorsOkFrom hex .other rest

def dropSign : Text → Text
  | [] => []
  | c :: rest => if c = Text.ascii '-' || c = Text.ascii '+' then rest else c :: rest

/-- Whether underscores only separate digits; a base marker counts as a digit. -/
def separatorsOk (t : Text) : Bool :=
  match dropSign t with
  | 0x30 :: c :: rest =>
    let marker := Text.lower c
    if marker = Text.ascii 'x' then separatorsOkFrom true .digit rest
    else if marker = Text.ascii 'b' || marker = Text.ascii 'o' then
      separatorsOkFrom false .digit rest
    else separatorsOkFrom false .start (0x30 :: c :: rest)
  | t => separatorsOkFrom false .start t

/-- The base that the first bytes announce, and the rest. A marker needs something behind it, and
a leading zero alone announces base eight. -/
def base : Text → Nat × Text
  | 0x30 :: c :: d :: rest =>
    let marker := Text.lower c
    if marker = Text.ascii 'b' then (2, d :: rest)
    else if marker = Text.ascii 'o' then (8, d :: rest)
    else if marker = Text.ascii 'x' then (16, d :: rest)
    else (8, c :: d :: rest)
  | 0x30 :: rest => (8, rest)
  | t => (10, t)

/-- Reads digits after the value `acc`. The first byte that is no digit of the base, or the first
digit that takes the value past `max`, decides. -/
def readDigits (base max : Nat) : Nat → Text → Except Fault Nat
  | acc, [] => .ok acc
  | acc, c :: rest =>
    if c = Text.ascii '_' then readDigits base max acc rest
    else
      match digit? c with
      | none => .error .malformed
      | some d =>
        if base ≤ d then .error .malformed
        else if max < acc * base + d then .error .outOfRange
        else readDigits base max (acc * base + d) rest

/-- Reads an unsigned numeral of at most `bits` bits. -/
def readNat (bits : Nat) (t : Text) : Except Fault Nat :=
  if t.isEmpty then .error .malformed
  else
    match readDigits (base t).1 ((1 <<< bits) - 1) 0 (base t).2 with
    | .error e => .error e
    | .ok n =>
      if t.contains (Text.ascii '_') && !separatorsOk t then .error .malformed else .ok n

/-- Reads a numeral with an optional sign into the two's complement range of `bits` bits. -/
def readInt (bits : Nat) (t : Text) : Except Fault Int :=
  let negative := t.head? == some (Text.ascii '-')
  match readNat bits (dropSign t) with
  | .error e => .error e
  | .ok n =>
    if negative then if 1 <<< (bits - 1) < n then .error .outOfRange else .ok (-n)
    else if 1 <<< (bits - 1) ≤ n then .error .outOfRange
    else .ok n

end TypeFlow.Number
