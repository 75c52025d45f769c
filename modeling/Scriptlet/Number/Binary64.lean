/-!
# Exact arithmetic on the bits of 64-bit floats

A finite float is `m · 2^e` for a natural number `m < 2^53` and an exponent `e ≥ -1074`, with a
sign.  Everything in this file works on that form in exact natural-number arithmetic: order,
rounding of a ratio to the nearest float, truncation to a word and the remainder of a division.
-/

namespace Scriptlet.Binary64

/-! ## 1. The parts of a float -/

def magnitudeBits (x : Float) : Nat := x.toBits.toNat % (1 <<< 63)

def isNegative (x : Float) : Bool := 1 <<< 63 ≤ x.toBits.toNat

/-- The magnitude bits of an infinity; larger ones belong to the NaNs. -/
def infinityBits : Nat := 0x7FF <<< 52

def isNaN (x : Float) : Bool := infinityBits < magnitudeBits x

def isInfinite (x : Float) : Bool := magnitudeBits x == infinityBits

def isFinite (x : Float) : Bool := magnitudeBits x < infinityBits

/-- The whole number `m` of a finite float `m · 2^e`. -/
def significand (x : Float) : Nat :=
  let bits := magnitudeBits x
  if bits < 1 <<< 52 then bits else bits % (1 <<< 52) + (1 <<< 52)

def exponent (x : Float) : Int :=
  ((max (magnitudeBits x >>> 52) 1 : Nat) : Int) - 1075

def ofMagnitude (negative : Bool) (bits : Nat) : Float :=
  Float.ofBits (UInt64.ofNat (if negative then (1 <<< 63) + bits else bits))

def nan : Float := ofMagnitude false (infinityBits + (1 <<< 51))

def infinity (negative : Bool) : Float := ofMagnitude negative infinityBits

/-! ## 2. Order

Sign and magnitude bits of a float that is not a NaN give an integer that grows with
the float, and both zeros give `0`. -/

/-- An integer that orders the floats that are not NaNs. -/
def orderKey (x : Float) : Int :=
  if isNegative x then -(magnitudeBits x : Int) else magnitudeBits x

/-- Order of all floats in which a NaN is below every other float and equal to a NaN. -/
def compare (x y : Float) : Ordering :=
  match isNaN x, isNaN y with
  | true, true => .eq
  | true, false => .lt
  | false, true => .gt
  | false, false => Ord.compare (orderKey x) (orderKey y)

/-- Numeric equality: a NaN equals nothing, and the two zeros are equal. -/
def equals (x y : Float) : Bool :=
  !isNaN x && !isNaN y && orderKey x == orderKey y

def isZero (x : Float) : Bool := magnitudeBits x == 0

/-! ## 3. Rounding -/

/-- The whole number nearest to `num / den`, the even one of two that are equally near. -/
def roundQuotient (num den : Nat) : Nat :=
  let q := num / den
  let r := num % den
  if 2 * r < den then q
  else if den < 2 * r then q + 1
  else if q % 2 = 0 then q else q + 1

/-- The quotient `num / den` scaled by `2^(-e)`, as a pair of numerator and denominator. -/
def scaled (num den : Nat) (e : Int) : Nat × Nat :=
  if 0 ≤ e then (num, den <<< e.toNat) else (num <<< (-e).toNat, den)

/-- The exponent at which a positive ratio is rounded: the significand then has 53
bits, or fewer at the least exponent. -/
def roundingExponent (num den : Nat) : Int :=
  let guess : Int := (num.log2 : Int) - den.log2 - 53
  let (n, d) := scaled num den guess
  let e := if n / d < 1 <<< 53 then guess else guess + 1
  max e (-1074)

/-- The magnitude bits of the float nearest to the ratio `num / den` of positive numbers, the one
with an even significand of two that are equally near.  A significand that rounds up to `2^53`
carries into the exponent by itself. -/
def ratioBits (num den : Nat) : Nat :=
  let e := roundingExponent num den
  let (n, d) := scaled num den e
  min infinityBits (((e + 1074).toNat <<< 52) + roundQuotient n d)

/-- The float nearest to `± num / den`; zero if either number is zero. -/
def ofRatio (negative : Bool) (num den : Nat) : Float :=
  ofMagnitude negative (if num = 0 ∨ den = 0 then 0 else ratioBits num den)

def ofInt64 (n : Int64) : Float :=
  ofRatio (n.toInt < 0) n.toInt.natAbs 1

/-! ## 4. Decimal notation -/

/-- The float nearest to `± digits · 10^scale` for a number of `count` decimal digits.  Scales far
outside the range of floats are decided by that count, without building the power. -/
def ofDecimal (negative : Bool) (count digits : Nat) (scale : Int) : Float :=
  let magnitude : Int := scale + count
  if digits = 0 ∨ magnitude < -400 then ofMagnitude negative 0
  else if 400 < magnitude then infinity negative
  else if 0 ≤ scale then ofRatio negative (digits * Nat.pow 10 scale.toNat) 1
  else ofRatio negative digits (Nat.pow 10 (-scale).toNat)

/-! ## 5. Whole numbers and remainders -/

/-- The magnitude of a finite float without its fraction. -/
def wholeMagnitude (x : Float) : Nat :=
  let e := exponent x
  if 0 ≤ e then significand x <<< e.toNat else significand x >>> (-e).toNat

def isWhole (x : Float) : Bool :=
  let e := exponent x
  0 ≤ e || significand x % (1 <<< (-e).toNat) == 0

def truncate (x : Float) : Int :=
  if isNegative x then -(wholeMagnitude x : Int) else wholeMagnitude x

/-- The word nearest to an integer: integers outside the range go to its ends. -/
def saturate (n : Int) : Int64 :=
  Int64.ofInt (max Int64.minValue.toInt (min n Int64.maxValue.toInt))

/-- The word obtained by dropping the fraction, at an end of the range where it does
not fit.  A NaN or an infinity gives zero. -/
def toInt64 (x : Float) : Int64 :=
  if isFinite x then saturate (truncate x) else 0

/-- The remainder of the division of `x` by `y` that truncates its quotient: exact, with the
sign of `x`. -/
def remainder (x y : Float) : Float :=
  if isNaN x || isNaN y || isInfinite x || isZero y then nan
  else if isInfinite y then x
  else
    let e := min (exponent x) (exponent y)
    let whole (z : Float) : Nat := significand z <<< (exponent z - e).toNat
    let r := whole x % whole y
    if 0 ≤ e then ofRatio (isNegative x) (r <<< e.toNat) 1
    else ofRatio (isNegative x) r (1 <<< (-e).toNat)

end Scriptlet.Binary64
