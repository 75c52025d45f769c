import Scriptlet.Store.Read

/-!
# Deep copies

A deep copy shares no array with the store it was made from.  Each array that is reached is copied
once, so arrays that are shared or contain themselves come out shared in the same way.  References
are replaced by the values they reach.

Copies are what `copy` of §10.6 of the specification gives, and what a run hands to its host.
-/

namespace Scriptlet

/-- The state of a copy: which array was copied to which, and the new arrays in the order of
their identifiers. -/
structure Copies where
  made : List (ArrayId × ArrayId)
  fresh : Array (Array Value)

namespace Walk

def copyAll (copy : Value → Copies → Option (Value × Copies)) :
    List Value → Copies → Option (List Value × Copies)
  | [], state => some ([], state)
  | v :: vs, state => do
    let (w, state) ← copy v state
    let (ws, state) ← copyAll copy vs state
    return (w :: ws, state)

/-- Copies a value.  A new array gets its identifier before its elements are copied, so that they
can refer to it. -/
def copy (σ : Store) (slot : Reader) : (fuel : Nat) → Value → Copies → Option (Value × Copies)
  | 0, _, _ => none
  | n + 1, v, state => do
    match ← resolve slot v with
    | .array a =>
      match state.made.lookup a with
      | some b => return (.array b, state)
      | none => do
        let place := state.fresh.size
        let b : ArrayId := ⟨σ.arrays.size + place⟩
        let (ws, state) ← copyAll (copy σ slot n) (σ.items a).toList
          ⟨(a, b) :: state.made, state.fresh.push #[]⟩
        return (.array b, { state with fresh := state.fresh.setIfInBounds place ws.toArray })
    | w => return (w, state)

end Walk

/-- The deep copy of a value, and the store with its arrays. -/
def Store.copy (σ : Store) (fuel : Nat) (v : Value) : Option (Value × Store) := do
  let (w, state) ← Walk.copy σ (σ.slot fuel) fuel v ⟨[], #[]⟩
  return (w, { σ with arrays := σ.arrays ++ state.fresh })

end Scriptlet
