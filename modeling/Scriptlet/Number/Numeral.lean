import Scriptlet.Number.Binary64
import Scriptlet.Text.Blank

/-!
# Numbers and their reading from text

A number is a 64-bit word or a float.  Text reads as a number if, without the blanks around it, it
is `true` or `false`, a whole number that fits a word, or a decimal float.

The order of the readings is that of §4.3 of the specification: truth values, whole numbers, floats.
-/

namespace Scriptlet

inductive Number where
  | int (n : Int64)
  | float (x : Float)
  deriving DecidableEq, Repr

namespace Number

def toFloat : Number → Float
  | int n => Binary64.ofInt64 n
  | float x => x

def isNaN : Number → Bool
  | int _ => false
  | float x => Binary64.isNaN x

/-- Whole numbers compare exactly, any other pair as floats, with NaN lowest. -/
def compare : Number → Number → Ordering
  | int a, int b => Ord.compare a.toInt b.toInt
  | a, b => Binary64.compare a.toFloat b.toFloat

/-- The word view: fractions are dropped, and NaN and the infinities give zero. -/
def toInt64 : Number → Int64
  | int n => n
  | float x => Binary64.toInt64 x

def truthy : Number → Bool
  | int n => n != 0
  | float x => !Binary64.isZero x && !Binary64.isNaN x

end Number

namespace Numeral

/-! ## 1. Digits -/

def digitValue (c : Char) : Nat := c.toNat - '0'.toNat

/-- The number that decimal digits denote, as far as the digit with which it reaches the cap.  A
number below the cap is exact, and any other one gives at least the cap. -/
def cappedValue (cap : Nat) (ds : List Char) : Nat :=
  ds.foldl (fun n c => if n < cap then 10 * n + digitValue c else n) 0

/-- Joins neighbouring digits to a base, the least first, to digits to the square of the base. -/
def joinPairs (base : Nat) : List Nat → List Nat
  | low :: high :: more => (low + base * high) :: joinPairs base more
  | ds => ds

theorem length_joinPairs_le (base : Nat) : ∀ ds : List Nat, (joinPairs base ds).length ≤ ds.length
  | [] => by simp [joinPairs]
  | [_] => by simp [joinPairs]
  | _ :: _ :: more => by
    have := length_joinPairs_le base more
    simp only [joinPairs, List.length_cons]
    omega

/-- The number that digits to a base denote, the least first.  Joining pairs keeps the factors of
every product equally long, so that long numerals are read fast. -/
def ofDigits (base : Nat) (ds : List Nat) : Nat :=
  match ds with
  | [] => 0
  | [d] => d
  | low :: high :: more => ofDigits (base * base) (joinPairs base (low :: high :: more))
termination_by ds.length
decreasing_by
  have := length_joinPairs_le base more
  simp only [joinPairs, List.length_cons]
  omega

/-! ## 2. Whole numbers -/

def splitSign : List Char → Bool × List Char
  | '-' :: rest => (true, rest)
  | '+' :: rest => (false, rest)
  | cs => (false, cs)

/-- One more than the greatest magnitude of a word. -/
def wordCap : Nat := Int64.minValue.toInt.natAbs + 1

/-- The word denoted by an optional sign and one or more digits, if it is in range. -/
def readInt? (cs : List Char) : Option Int64 :=
  let (negative, ds) := splitSign cs
  if ds.isEmpty || !ds.all Char.isDigit then none
  else
    let magnitude : Int := cappedValue wordCap ds
    let n := if negative then -magnitude else magnitude
    if Int64.minValue.toInt ≤ n ∧ n ≤ Int64.maxValue.toInt then some (Int64.ofInt n) else none

/-! ## 3. Floats -/

/-- No digit of an exponent is read once its magnitude has reached this. -/
def exponentCap : Nat := 1 <<< 16

/-- The exponent after an unsigned decimal: nothing, or `e` with a signed whole number. -/
def readExponent? : List Char → Option Int
  | [] => some 0
  | c :: rest =>
    if c = 'e' ∨ c = 'E' then
      let (negative, ds) := splitSign rest
      if ds.isEmpty || !ds.all Char.isDigit then none
      else
        let magnitude : Int := cappedValue exponentCap ds
        some (if negative then -magnitude else magnitude)
    else none

def splitFraction : List Char → List Char × List Char
  | '.' :: rest => (rest.takeWhile Char.isDigit, rest.dropWhile Char.isDigit)
  | cs => ([], cs)

/-- A float without a sign: digits with an optional point among or around them, then an
optional exponent. -/
def readUnsigned? (negative : Bool) (cs : List Char) : Option Float :=
  let whole := cs.takeWhile Char.isDigit
  let (fraction, rest) := splitFraction (cs.dropWhile Char.isDigit)
  if whole.isEmpty && fraction.isEmpty then none
  else (readExponent? rest).map fun e =>
    let ds := (whole ++ fraction).dropWhile (· = '0')
    Binary64.ofDecimal negative ds.length (ofDigits 10 (ds.reverse.map digitValue))
      (e - fraction.length)

/-- A float with an optional sign; the names of NaN and infinity count, in any case. -/
def readFloat? (cs : List Char) : Option Float :=
  let (negative, body) := splitSign cs
  if Text.equalsFolded body "nan" then some Binary64.nan
  else if Text.equalsFolded body "inf" || Text.equalsFolded body "infinity" then
    some (Binary64.infinity negative)
  else readUnsigned? negative body

/-! ## 4. Numbers -/

/-- The number that a text denotes, if any: a truth value, then a whole number, then a float.
Blank text denotes none. -/
def read? (text : String) : Option Number :=
  let cs := Text.trim text.toList
  if cs.isEmpty then none
  else if Text.equalsFolded cs "true" then some (.int 1)
  else if Text.equalsFolded cs "false" then some (.int 0)
  else match readInt? cs with
    | some n => some (.int n)
    | none => (readFloat? cs).map .float

/-- The lenient reading used in arithmetic: blank text is zero and any other text that
denotes no number is NaN. -/
def coerce (text : String) : Number :=
  if (Text.trim text.toList).isEmpty then .int 0 else (read? text).getD (.float Binary64.nan)

end Numeral
end Scriptlet
