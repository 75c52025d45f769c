import Scriptlet.Number.Numeral

/-!
# Values and references

Arrays, scopes and functions are shared: a value names them by an identifier, and their contents are
in a `Store`.  Two values alias the same array exactly if they hold the same identifier.

The forms of values are those of §3 of the specification, with the references of §10.6.
-/

namespace Scriptlet

/-- The name of an array in a store. -/
structure ArrayId where
  index : Nat
  deriving DecidableEq, Repr

structure ScopeId where
  index : Nat
  deriving DecidableEq, Repr

structure FunctionId where
  index : Nat
  deriving DecidableEq, Repr

/-- An environment: the scopes that are visible from a place in a program, the innermost first. -/
structure Env where
  here : ScopeId
  outer : List ScopeId
  deriving DecidableEq, Repr

namespace Env

def chain (env : Env) : List ScopeId := env.here :: env.outer

/-- The environment around the innermost scope, if there is one. -/
def parent? (env : Env) : Option Env :=
  match env.outer with
  | [] => none
  | s :: more => some ⟨s, more⟩

def root (env : Env) : Env := ⟨env.outer.getLastD env.here, []⟩

end Env

mutual
inductive Value where
  /-- What an unset variable holds. -/
  | invalid
  | bool (b : Bool)
  | int (n : Int64)
  | float (x : Float)
  | str (s : String)
  | array (id : ArrayId)
  | function (id : FunctionId)
  | reference (r : Reference)
  deriving DecidableEq
/-- A way to reach a value, and maybe to replace it. -/
inductive Reference where
  /-- A value that is no location. -/
  | direct (v : Value)
  /-- The variable that a name stands for in an environment. -/
  | binding (env : Env) (name : String)
  /-- An element of what another reference reaches. -/
  | element (base : Reference) (index : Value)
  deriving DecidableEq
end

namespace Value

instance : Inhabited Value := ⟨invalid⟩

def typeName : Value → String
  | invalid => "invalid"
  | bool _ => "bool"
  | int _ => "int"
  | float _ => "float"
  | str _ => "string"
  | array _ => "array"
  | function _ => "function"
  | reference _ => "reference"

def ofNumber : Number → Value
  | .int n => int n
  | .float x => float x

def isReference : Value → Bool
  | reference _ => true
  | _ => false

def isInvalid : Value → Bool
  | invalid => true
  | _ => false

/-- Whether a value is a number without any reading of text; truth values count. -/
def isNumeric : Value → Bool
  | bool _ | int _ | float _ => true
  | _ => false

def isNaN : Value → Bool
  | float x => Binary64.isNaN x
  | _ => false

end Value
end Scriptlet
