import TypeFlow.Number.Binary64
import TypeFlow.Text

/-! The shortest decimal that reads back as a given binary number, and its text. -/

namespace TypeFlow.Number.Shortest

open Binary64

/-- The decimal `digits * 10 ^ exponent`. -/
structure Decimal where
  digits : Nat
  exponent : Int
  deriving DecidableEq, Repr

/-- The finite magnitude as a fraction. -/
def fraction (mag : Nat) : Nat × Nat := scale 2 (significand mag) 1 (exponent mag)

def decimalReadsBack (mag : Nat) (d : Decimal) : Bool :=
  d.digits != 0 && ofScaled 10 d.digits d.exponent == mag

/-- The greatest `e` with `10 ^ e ≤ num / den`, searched downwards from `guess + 1`. -/
def floorLogTen (num den : Nat) : Int :=
  let guess : Int := Int.ediv (floorLog num den * 30103) 100000
  let fits (e : Int) : Bool := let f := scale 10 num den (-e); f.2 ≤ f.1
  if fits (guess + 1) then guess + 1 else if fits guess then guess else guess - 1

/-- The decimal of `count` digits that reads back as the magnitude: of its two neighbours the nearer
one, and on an exact tie the even one. -/
def ofCount? (mag count : Nat) : Option Decimal :=
  let f := fraction mag
  let e := floorLogTen f.1 f.2 - (count - 1)
  let g := scale 10 f.1 f.2 (-e)
  let below : Decimal := ⟨g.1 / g.2, e⟩
  let above : Decimal := ⟨g.1 / g.2 + 1, e⟩
  let nearest : Decimal := ⟨roundDiv g.1 g.2, e⟩
  if decimalReadsBack mag nearest then some nearest
  else if decimalReadsBack mag below then some below
  else if decimalReadsBack mag above then some above
  else none

/-- Seventeen digits always suffice. -/
def ofMagnitude (mag : Nat) : Decimal :=
  ((List.range' 1 17).findSome? (ofCount? mag)).getD ⟨0, 0⟩

/-- Digits without trailing zeros. -/
def significantDigits (t : Text) : Text :=
  (t.reverse.dropWhile (· == Text.ascii '0')).reverse

/-- The digits behind the point, with the point if there are any. -/
def fractionText (digits : Text) : Text := if digits.isEmpty then [] else "." ++ digits

/-- An exponent has a sign and at least two digits. -/
def exponentText (e : Int) : Text :=
  let sign : Text := if e < 0 then "-" else "+"
  "e" ++ sign ++ Text.padLeft (Text.ascii '0') 2 (Text.ofNat e.natAbs)

/-- Positional notation for the decimal exponents from -4 to 5, and otherwise one digit before the
point and an exponent. -/
def format (d : Decimal) : Text :=
  let all := Text.ofNat d.digits
  let digits := significantDigits all
  let e : Int := d.exponent + all.length - 1
  if e < -4 || 6 ≤ e then
    digits.take 1 ++ fractionText (digits.drop 1) ++ exponentText e
  else if e < 0 then
    "0." ++ List.replicate (-e - 1).toNat (Text.ascii '0') ++ digits
  else
    let point := e.toNat + 1
    let whole := digits.take point
    whole ++ List.replicate (point - whole.length) (Text.ascii '0')
      ++ fractionText (digits.drop point)

end Shortest

/-- The text of a 64-bit float given by its bits. -/
def floatText (bits : UInt64) : Text :=
  let mag := Binary64.magnitude bits
  let sign : Text := if Binary64.isNegative bits then "-" else ""
  if Binary64.infinity < mag then "NaN"
  else if mag = Binary64.infinity then (if Binary64.isNegative bits then "-Inf" else "+Inf")
  else if mag = 0 then sign ++ "0"
  else sign ++ Shortest.format (Shortest.ofMagnitude mag)

end TypeFlow.Number
