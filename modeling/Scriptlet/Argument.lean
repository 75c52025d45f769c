import Scriptlet.Value

/-!
# Matching the arguments of a call to parameters

Without named arguments, matching is by position.  Otherwise each parameter first takes the argument
of its name; then the parameters that are left take, in order, the first argument that is left and
is unnamed or has their name.

This is the binding algorithm of `Invoke` in §4.5 of the specification.  Defaults are not part of
it: a parameter that nothing is bound to is left open here, and is filled by the evaluator.
-/

namespace Scriptlet

structure Argument where
  name : Option String
  value : Value
  deriving DecidableEq

namespace Argument

def positional (v : Value) : Argument := ⟨none, v⟩

def takeFirst? (p : Argument → Bool) : List Argument → Option (Value × List Argument)
  | [] => none
  | a :: as =>
    if p a then some (a.value, as)
    else (takeFirst? p as).map fun (v, rest) => (v, a :: rest)

/-- Matches by position.  A parameter without an argument gets nothing, and arguments beyond the
parameters are dropped. -/
def bindPositional : (params : List String) → List Argument → List (Option Value)
  | [], _ => []
  | _ :: ps, [] => none :: bindPositional ps []
  | _ :: ps, a :: as => some a.value :: bindPositional ps as

/-- Gives each parameter the first argument of its name, and returns the arguments that are left. -/
def bindNamed : (params : List String) → List Argument → List (Option Value) × List Argument
  | [], args => ([], args)
  | p :: ps, args =>
    match takeFirst? (·.name = some p) args with
    | some (v, rest) =>
      let (slots, left) := bindNamed ps rest
      (some v :: slots, left)
    | none =>
      let (slots, left) := bindNamed ps args
      (none :: slots, left)

/-- Gives each parameter that has nothing yet the first argument that is unnamed or has its name. -/
def bindLeft : (params : List String) → List (Option Value) → List Argument → List (Option Value)
  | _ :: ps, some v :: slots, args => some v :: bindLeft ps slots args
  -- An argument that carries the name of another parameter is passed over, but it is not lost: it
  -- is still there for the parameters behind this one.
  | p :: ps, none :: slots, args =>
    match takeFirst? (fun a => a.name = none || a.name = some p) args with
    | some (v, rest) => some v :: bindLeft ps slots rest
    | none => none :: bindLeft ps slots args
  | _, slots, _ => slots

def bindByName (params : List String) (args : List Argument) : List (Option Value) :=
  let (slots, left) := bindNamed params args
  bindLeft params slots left

/-- What each parameter gets from the arguments of a call, if anything. -/
def bind (params : List String) (args : List Argument) : List (Option Value) :=
  if args.all (·.name.isNone) then bindPositional params args else bindByName params args

end Argument
end Scriptlet
