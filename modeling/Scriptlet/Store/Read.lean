import Scriptlet.Number.Shortest
import Scriptlet.Store

/-!
# Reading values: references, text and numbers

A value may be a reference to a location that again holds a reference; a read follows at most
`hopLimit` of them.  Reading an element needs the number that its index stands for, the number of an
array is read off its text, and the text of an array follows the references in it, so these readings
depend on each other.  The walks below take the reading of one location as a parameter; `Store.slot`
ties the knot.

Chains of references can be circular without end, so `Store.slot` has fuel.  Every reading gives
`none` exactly when its fuel runs out.

The readings are the coercions of §4.3 of the specification and the reading half of `Reference` in
§4.6; the limit on references is that of §10.6.
-/

namespace Scriptlet

/-- How many references a read or a write follows. -/
def hopLimit : Nat := 64

/-- A way to read the location that a reference names. -/
abbrev Reader := Reference → Option Value

namespace Walk

/-! ## 1. Following references

A chain that is too long reads as unset and is no error; writing through it is one. -/

/-- Follows up to `hops` references; a longer chain reads as `invalid`. -/
def follow (slot : Reader) : (hops : Nat) → Value → Option Value
  | hops, .reference r =>
    match hops with
    | 0 => some .invalid
    | hops + 1 => do follow slot hops (← slot r)
  | _, v => some v

def resolve (slot : Reader) (v : Value) : Option Value := follow slot hopLimit v

/-! ## 2. Text

Arrays are written out as the texts of their elements with commas between them, without brackets.
So nesting does not show, except that an array inside itself is marked. -/

def plainText (σ : Store) : Value → String
  | .bool b => if b then "true" else "false"
  | .int n => toString n.toInt
  | .float x => Decimal.plain.render x
  | .str s => s
  | .function f => σ.functionText f
  | _ => ""

def joinTexts (text : Value → Option String) (separator : String) (vs : List Value) :
    Option String :=
  (vs.mapM text).map (String.intercalate separator)

/-- The text of a value inside the arrays `within`.  An array inside itself is not written
out again. -/
def render (σ : Store) (slot : Reader) :
    (fuel : Nat) → (within : List ArrayId) → Value → Option String
  | 0, _, _ => none
  | n + 1, within, v =>
    match v with
    | .array a =>
      if a ∈ within then some "[...]"
      else joinTexts (render σ slot n (a :: within)) "," (σ.items a).toList
    | .reference _ => do render σ slot n within (← resolve slot v)
    | _ => some (plainText σ v)

/-! ## 3. Numbers

Nothing is refused as a number: blank text is zero, and what denotes no number is NaN. -/

/-- The number that a value stands for: unset is zero, text is read, an array is read through its
text and a function is NaN. -/
def number (σ : Store) (slot : Reader) (fuel : Nat) (v : Value) : Option Number := do
  let w ← resolve slot v
  match w with
  | .invalid => return .int 0
  | .bool b => return .int (if b then 1 else 0)
  | .int n => return .int n
  | .float x => return .float x
  | .str s => return Numeral.coerce s
  | .array _ => return Numeral.coerce (← render σ slot fuel [] w)
  | _ => return .float Binary64.nan

end Walk

/-- The index that a number is: a whole number that is not negative. -/
def Number.index? : Number → Option Nat
  | .int n => if 0 ≤ n.toInt then some n.toInt.toNat else none
  | .float x =>
    if (!Binary64.isNegative x || Binary64.isZero x) && Binary64.isFinite x &&
      Binary64.isWhole x then
      some (min (Binary64.wholeMagnitude x) (UInt64.size - 1))
    else none

namespace Store

/-! ## 4. Locations

A string has its characters as elements for reading.  What is beyond the end, and what has no
elements, reads as unset. -/

def elementAt (σ : Store) (v : Value) (i : Nat) : Value :=
  match v with
  | .array a => (σ.items a)[i]?.getD .invalid
  | .str s =>
    match s.toList[i]? with
    | some c => .str (String.singleton c)
    | none => .invalid
  | _ => .invalid

/-- What the location of a reference holds; a stored reference is not followed. -/
def slot (σ : Store) : (fuel : Nat) → Reference → Option Value
  | 0, _ => none
  | _ + 1, .direct v => some v
  | _ + 1, .binding env name => some ((σ.lookup env name).getD .invalid)
  | n + 1, .element base index => do
    let v ← Walk.resolve (σ.slot n) (← σ.slot n base)
    match (← Walk.number σ (σ.slot n) n index).index? with
    | some i => return σ.elementAt v i
    | none => return .invalid

def resolve (σ : Store) (fuel : Nat) (v : Value) : Option Value :=
  Walk.resolve (σ.slot fuel) v

/-- The value that a reference reaches, stored references followed. -/
def read (σ : Store) (fuel : Nat) (r : Reference) : Option Value := do
  σ.resolve fuel (← σ.slot fuel r)

/-! ## 5. Views of a value

Each view reads through references first, and gives `none` only if the fuel is not enough for that.
-/

def display (σ : Store) (fuel : Nat) (v : Value) : Option String :=
  Walk.render σ (σ.slot fuel) fuel [] v

def join (σ : Store) (fuel : Nat) (a : ArrayId) (separator : String) : Option String :=
  Walk.joinTexts (σ.display fuel) separator (σ.items a).toList

def toNumber (σ : Store) (fuel : Nat) (v : Value) : Option Number :=
  Walk.number σ (σ.slot fuel) fuel v

def toInt (σ : Store) (fuel : Nat) (v : Value) : Option Int64 :=
  (σ.toNumber fuel v).map Number.toInt64

def toFloat (σ : Store) (fuel : Nat) (v : Value) : Option Float :=
  (σ.toNumber fuel v).map Number.toFloat

def toIndex (σ : Store) (fuel : Nat) (v : Value) : Option (Option Nat) :=
  (σ.toNumber fuel v).map Number.index?

/-- Whether a value counts as true.  Text counts as the number it denotes, or else if it is not
empty. -/
def toBool (σ : Store) (fuel : Nat) (v : Value) : Option Bool := do
  match ← σ.resolve fuel v with
  | .bool b => return b
  | .int n => return (Number.int n).truthy
  | .float x => return (Number.float x).truthy
  | .str s =>
    match Numeral.read? s with
    | some n => return n.truthy
    | none => return !s.isEmpty
  | .array a => return !(σ.items a).isEmpty
  | .function _ => return true
  | _ => return false

/-- The value of a subscript: an element or a character, with stored references followed, and
`invalid` where there is none. -/
def subscript (σ : Store) (fuel : Nat) (target index : Value) : Option Value := do
  match ← σ.toIndex fuel index with
  | some i => σ.resolve fuel (σ.elementAt (← σ.resolve fuel target) i)
  -- The target is not looked at where the index is none.
  | none => return .invalid

end Store
end Scriptlet
