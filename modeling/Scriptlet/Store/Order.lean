import Scriptlet.Store.Read

/-!
# Identity and order of values

Both walk through arrays side by side.  A pair of arrays that is being compared already counts as
equal, which makes the walks end on arrays that contain themselves.

They are `===` and `Compare` of §4.3 of the specification, which calls the order total; on arrays
that contain themselves it is this convention that decides.
-/

namespace Scriptlet
namespace Walk

abbrev OpenPairs := List (ArrayId × ArrayId)

/-! ## 1. Identity

No two values of different types are identical, and NaN is not identical to itself. -/

def allPairs (p : Value → Value → Option Bool) : List Value → List Value → Option Bool
  | x :: xs, y :: ys => do
    if ← p x y then allPairs p xs ys else return false
  | _, _ => some true

/-- Whether two values are of the same type and have the same contents. -/
def identical (σ : Store) (slot : Reader) : (fuel : Nat) → OpenPairs → Value → Value → Option Bool
  | 0, _, _, _ => none
  | n + 1, pairs, l, r => do
    match ← resolve slot l, ← resolve slot r with
    | .invalid, .invalid => return true
    | .bool a, .bool b => return a == b
    | .int a, .int b => return a == b
    | .float a, .float b => return Binary64.equals a b
    | .str a, .str b => return a == b
    | .array a, .array b =>
      if a = b ∨ (a, b) ∈ pairs then return true
      else if (σ.items a).size ≠ (σ.items b).size then return false
      else allPairs (identical σ slot n ((a, b) :: pairs)) (σ.items a).toList (σ.items b).toList
    | .function f, .function g => return f == g
    | _, _ => return false

/-! ## 2. Order

Every two values are ordered, also of different types.  The cases are tried from the top, so those
that come first decide for the types that several of them name. -/

/-- The order of two lists by their first difference; a list comes before its extensions. -/
def lexicographic (cmp : Value → Value → Option Ordering) :
    List Value → List Value → Option Ordering
  | x :: xs, y :: ys => do
    match ← cmp x y with
    | .eq => lexicographic cmp xs ys
    | o => return o
  | [], [] => some .eq
  | [], _ :: _ => some .lt
  | _ :: _, [] => some .gt

def plainNumber : Value → Number
  | .bool b => .int (if b then 1 else 0)
  | .int n => .int n
  | .float x => .float x
  | _ => .int 0

/-- The order of a text and a numeric value: as numbers if the text denotes one, else as texts. -/
def compareText (σ : Store) (s : String) (v : Value) : Ordering :=
  match Numeral.read? s with
  | some n => n.compare (plainNumber v)
  | none => Ord.compare s (plainText σ v)

/-- The order of two values.  NaN comes first and unset values next; functions come after all other
scalars.  An array of one element compares with a number as its element does, any other array
compares with a scalar as its text does. -/
def compare (σ : Store) (slot : Reader) : (fuel : Nat) → OpenPairs → Value → Value → Option Ordering
  | 0, _, _, _ => none
  | n + 1, pairs, l, r => do
    let l ← resolve slot l
    let r ← resolve slot r
    -- An array against a scalar: a lone element stands for its array if the scalar is numeric.
    let arrayScalar (a : ArrayId) (v : Value) : Option Ordering :=
      match (σ.items a).toList, v.isNumeric with
      | [item], true => compare σ slot n pairs item v
      | items, _ => do
        let text ← joinTexts (render σ slot n []) "," items
        return Ord.compare text (plainText σ v)
    -- NaN is decided before all else, so that no case below meets one.
    match l.isNaN, r.isNaN with
    | true, true => return .eq
    | true, false => return .lt
    | false, true => return .gt
    | false, false =>
      match l, r with
      | .invalid, .invalid => return .eq
      | .invalid, _ => return .lt
      | _, .invalid => return .gt
      | .array a, .array b =>
        if a = b ∨ (a, b) ∈ pairs then return .eq
        else
          lexicographic (compare σ slot n ((a, b) :: pairs)) (σ.items a).toList (σ.items b).toList
      | .array a, v => arrayScalar a v
      | v, .array b => (arrayScalar b v).map Ordering.swap
      | .function f, .function g => return Ord.compare f.index g.index
      | .function _, _ => return .gt
      | _, .function _ => return .lt
      | .str a, .str b => return Ord.compare a b
      | .str s, v => return compareText σ s v
      | v, .str s => return (compareText σ s v).swap
      | a, b => return (plainNumber a).compare (plainNumber b)

end Walk

namespace Store

def identical (σ : Store) (fuel : Nat) (l r : Value) : Option Bool :=
  Walk.identical σ (σ.slot fuel) fuel [] l r

def compare (σ : Store) (fuel : Nat) (l r : Value) : Option Ordering :=
  Walk.compare σ (σ.slot fuel) fuel [] l r

/-- Whether the order of two values is one that is asked for; it never is for NaN. -/
def ordered (σ : Store) (fuel : Nat) (accept : Ordering → Bool) (l r : Value) : Option Bool := do
  -- The order puts NaN first, but no relation holds of it.
  if (← σ.resolve fuel l).isNaN || (← σ.resolve fuel r).isNaN then return false
  else return accept (← σ.compare fuel l r)

def numericView (v : Value) : Option Number :=
  if v.isNumeric then some (Walk.plainNumber v) else none

/-- Equality across types: equal in order, and no number that is NaN. -/
def looseEq (σ : Store) (fuel : Nat) (l r : Value) : Option Bool := do
  let l ← σ.resolve fuel l
  let r ← σ.resolve fuel r
  if (numericView l).any Number.isNaN || (numericView r).any Number.isNaN then return false
  else return (← σ.compare fuel l r) == .eq

end Store
end Scriptlet
