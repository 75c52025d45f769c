import Scriptlet.Number.Binary64

/-!
# Shortest decimal notation of a float

The reals that round to a finite float form an interval around it.  `shortest` finds the decimal
with the fewest digits in that interval: for one, two, … seventeen digits it tests the two
neighbours of the float on the grid of decimals with that many digits.  How the digits are laid out
is decided by a `FloatStyle`.
-/

namespace Scriptlet.Decimal

/-! ## 1. The fewest digits that read back -/

def digitCount (n : Nat) : Nat := (Nat.toDigits 10 n).length

/-- The place of the leading digit of a positive ratio: `p` with `10^p ≤ num / den < 10^(p+1)`. -/
def leadingPlace (num den : Nat) : Int :=
  if den ≤ num then (digitCount (num / den) : Int) - 1
  else -(digitCount ((den + num - 1) / num - 1) : Int)

/-- A float `value` and the ends of the interval of reals that round to it, as
multiples of one unit `num / den`.  The ends belong to the interval iff `closed`. -/
structure Interval where
  low : Nat
  value : Nat
  high : Nat
  closed : Bool
  num : Nat
  den : Nat

/-- The rounding interval of a positive finite float, in quarters of its last place.  Below a power
of two the floats are twice as dense. -/
def Interval.ofFloat (x : Float) : Interval :=
  let m := Binary64.significand x
  let e := Binary64.exponent x
  let (num, den) := Binary64.scaled 1 1 (2 - e)
  { low := if m = 1 <<< 52 ∧ -1074 < e then 4 * m - 1 else 4 * m - 2
    value := 4 * m
    high := 4 * m + 2
    closed := m % 2 = 0
    num := num
    den := den }

/-- The decimal on the grid `10^place` that lies in the interval and is nearest to the float,
the upper one of two that are equally near. -/
def Interval.onGrid? (i : Interval) (place : Int) : Option Nat :=
  let (s, d) := if 0 ≤ place then (i.num, i.den * Nat.pow 10 place.toNat)
    else (i.num * Nat.pow 10 (-place).toNat, i.den)
  let inside (q : Nat) : Bool :=
    if i.closed then i.low * s ≤ q * d && q * d ≤ i.high * s
    else i.low * s < q * d && q * d < i.high * s
  let q := i.value * s / d
  match inside q, inside (q + 1) with
  | true, true => some (if 2 * (i.value * s) < (2 * q + 1) * d then q else q + 1)
  | true, false => some q
  | false, true => some (q + 1)
  | false, false => none

/-- Removes trailing zeros from `digits · 10^scale`.  The fuel bounds their number. -/
def stripZeros : Nat → Nat → Int → Nat × Int
  | 0, digits, scale => (digits, scale)
  | fuel + 1, digits, scale =>
    if digits % 10 = 0 ∧ digits ≠ 0 then stripZeros fuel (digits / 10) (scale + 1)
    else (digits, scale)

/-- The decimal `digits · 10^scale` with the fewest digits that rounds to a positive
finite float. -/
def shortest (x : Float) : Nat × Int :=
  let i := Interval.ofFloat x
  let lead := leadingPlace (i.value * i.num) i.den
  let found := (List.range 17).findSome? fun (k : Nat) =>
    (i.onGrid? (lead - k)).map fun q => (q, lead - k)
  match found with
  | some (q, place) => stripZeros 18 q place
  | none => (0, 0)

/-! ## 2. Layout -/

structure FloatStyle where
  /-- Whether a number whose leading digit has this place is written without an exponent. -/
  positional : Int → Bool
  /-- Whether whole numbers get a fraction of `.0`. -/
  wholeFraction : Bool
  infinity : String

def zeros (n : Nat) : String := String.ofList (List.replicate n '0')

def positionalText (style : FloatStyle) (digits : Nat) (scale : Int) : String :=
  let ds := Nat.toDigits 10 digits
  let wholeEnd := if style.wholeFraction then ".0" else ""
  if 0 ≤ scale then String.ofList ds ++ zeros scale.toNat ++ wholeEnd
  else
    let places := (-scale).toNat
    if places < ds.length then
      String.ofList (ds.take (ds.length - places)) ++ "." ++
        String.ofList (ds.drop (ds.length - places))
    else "0." ++ zeros (places - ds.length) ++ String.ofList ds

def exponentText (digits : Nat) (scale : Int) : String :=
  match Nat.toDigits 10 digits with
  | [] => ""
  | [d] => s!"{d}e{scale}"
  | d :: ds =>
    let e := scale + ds.length
    s!"{d}." ++ String.ofList ds ++ s!"e{e}"

def magnitudeText (style : FloatStyle) (x : Float) : String :=
  if Binary64.isZero x then positionalText style 0 0
  else
    let (digits, scale) := shortest x
    if style.positional (scale + digitCount digits - 1) then positionalText style digits scale
    else exponentText digits scale

def FloatStyle.render (style : FloatStyle) (x : Float) : String :=
  if Binary64.isNaN x then "NaN"
  else
    let sign := if Binary64.isNegative x then "-" else ""
    sign ++ (if Binary64.isInfinite x then style.infinity else magnitudeText style x)

/-- The text of a float that scripts see: never an exponent, no fraction for whole numbers. -/
def plain : FloatStyle := ⟨fun _ => true, false, "Infinity"⟩

/-- The text of a float in listings of tokens and trees: always recognisable as a float, with
an exponent from `10^16` on and below `10^(-4)`. -/
def listed : FloatStyle := ⟨fun p => -4 ≤ p && p < 16, true, "inf"⟩

end Scriptlet.Decimal
