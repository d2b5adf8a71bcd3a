/-! Binary floating point numbers of 64 bits, taken apart into exact integers. A finite positive
number is `m * 2 ^ q` with `m < 2 ^ 53` and `-1074 ≤ q`, and `m` is at least `2 ^ 52` unless `q` is
the least exponent. -/

namespace TypeFlow.Number.Binary64

def isNegative (bits : UInt64) : Bool := 1 <<< 63 ≤ bits.toNat

/-- The bits without the sign. -/
def magnitude (bits : UInt64) : Nat := bits.toNat % (1 <<< 63)

/-- The magnitude of infinity; larger ones are not numbers. -/
def infinity : Nat := 0x7FF <<< 52

/-- The bits that a numeral for "not a number" reads as. -/
def nan : UInt64 := 0x7FF8000000000001

/-- The significand of a finite magnitude. -/
def significand (mag : Nat) : Nat :=
  if mag < 1 <<< 52 then mag else mag % (1 <<< 52) + (1 <<< 52)

/-- The binary exponent of a finite magnitude. -/
def exponent (mag : Nat) : Int :=
  if mag < 1 <<< 52 then -1074 else (mag >>> 52 : Nat) - 1075

/-- The quotient rounded to the nearest integer, a half to the even one. -/
def roundDiv (num den : Nat) : Nat :=
  let floor := num / den
  let twice := 2 * (num % den)
  if den < twice || (twice = den && floor % 2 = 1) then floor + 1 else floor

/-- `num * base ^ e` over `den`, as a fraction of naturals. -/
def scale (base num den : Nat) (e : Int) : Nat × Nat :=
  if 0 ≤ e then (num * Nat.pow base e.toNat, den) else (num, den * Nat.pow base (-e).toNat)

/-- The greatest `e` with `2 ^ e ≤ num / den`. -/
def floorLog (num den : Nat) : Int :=
  let guess : Int := (Nat.log2 num : Int) - Nat.log2 den
  let scaled := scale 2 num den (-guess)
  if scaled.2 ≤ scaled.1 then guess else guess - 1

/-- The magnitude nearest to the positive fraction `num / den`, a tie going to the even one.
Rounding up out of a binade gives the first number of the next, since the encoding is consecutive.
The result is `infinity` or more when the fraction is too large. -/
def ofFraction (num den : Nat) : Nat :=
  if num = 0 then 0
  else
    let q := max (floorLog num den - 52) (-1074)
    let scaled := scale 2 num den (-q)
    ((q + 1074).toNat <<< 52) + roundDiv scaled.1 scaled.2

/-- The magnitude nearest to `num * base ^ e`. -/
def ofScaled (base num : Nat) (e : Int) : Nat :=
  let f := scale base num 1 e
  ofFraction f.1 f.2

end TypeFlow.Number.Binary64
