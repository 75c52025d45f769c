import Scriptlet.Eval
import Scriptlet.Store.Read

/-!
# Writing through references

A location that holds a reference passes a plain value on to what the reference names, and a
reference value takes its place.  Writing to an element of an unset location creates an array there,
and writing to a character of a string replaces the string.

It is the writing half of `Reference` in §4.6 of the specification, with the first-class references
of §10.6.
-/

namespace Scriptlet

/-- Arrays and strings cannot be made longer than this by writing to an element. -/
def growthLimit : Nat := 1 <<< 24

/-- Puts a text in place of the character at an index; a shorter string is filled up with spaces. -/
def replaceChar (s : String) (i : Nat) (text : String) : String :=
  let cs := s.toList
  let filled := cs ++ List.replicate (i + 1 - cs.length) ' '
  String.ofList (filled.take i ++ text.toList ++ filled.drop (i + 1))

/-- Puts a value at an index of an array; a shorter array is filled up with unset values. -/
def putElement (items : Array Value) (i : Nat) (v : Value) : Array Value :=
  if i < items.size then items.setIfInBounds i v
  else (items ++ Array.replicate (i - items.size) Value.invalid).push v

namespace Eval

/-- Writes to the location of a reference.  The budget is the number of locations that may still be
visited. -/
def writeWithin (fuel : Nat) : (budget : Nat) → Reference → Value → Eval Unit
  | 0, _, _ => fail (.chainTooDeep hopLimit)
  | _ + 1, .direct v, _ => fail (.notAssignable v.typeName)
  -- A plain value goes through a stored reference; a reference value takes its place.
  | budget + 1, .binding env name, value => do
    match ← view (·.lookup env name), value.isReference with
    | some (.reference target), false => writeWithin fuel budget target value
    | _, _ => alter (·.set env name value)
  | budget + 1, .element base index, value => do
    match ← look (·.toIndex fuel index) with
    | none => do
      let text ← look (·.display fuel index)
      fail (.invalidIndex text)
    | some i =>
      match ← look (·.read fuel base) with
      | .array a => do
        let size ← view fun σ => (σ.items a).size
        match ← view fun σ => (σ.items a)[i]?, value.isReference with
        | some (.reference target), false => writeWithin fuel budget target value
        | _, _ =>
          if size ≤ i ∧ growthLimit ≤ i then fail (.pastGrowthLimit i growthLimit)
          else alter (·.modifyArray a (putElement · i value))
      -- Strings are values and not cells, so the changed string is written back to where it was
      -- read.  The same goes for the array that an unset location gets.
      | .str s =>
        if s.length ≤ i ∧ growthLimit ≤ i then fail (.pastGrowthLimit i growthLimit)
        else do
          let text ← look (·.display fuel value)
          writeWithin fuel budget base (.str (replaceChar s i text))
      | .invalid =>
        if growthLimit ≤ i then fail (.pastGrowthLimit i growthLimit)
        else do
          let a ← fresh (·.newArray (putElement #[] i value))
          writeWithin fuel budget base (.array a)
      | other => fail (.notIndexable other.typeName)

def write (fuel : Nat) (r : Reference) (value : Value) : Eval Unit :=
  writeWithin fuel (hopLimit + 1) r value

end Eval
end Scriptlet
