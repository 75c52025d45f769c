import Scriptlet.Argument
import Scriptlet.Assign
import Scriptlet.Store.Copy
import Scriptlet.Store.Operate

/-!
# The code of native functions

A native function gets its arguments as values, which may be references; most follow them, and those
that store an argument keep it as it is.

The functions of the standard library are known here by their codes (§10.6 of the specification).
Those of a host are known by their tags only, and `Host` says what they compute (`bind` of §6).
-/

namespace Scriptlet

namespace Number

/-- The magnitude; the least word stays as it is. -/
def abs : Number → Number
  | int n => int (if n < 0 then -n else n)
  | float x => float x.abs

/-- The first of two numbers if their order is one that is asked for, else the second; NaN if either
is. -/
def pick (keepFirst : Ordering → Bool) (a b : Number) : Number :=
  if a.isNaN || b.isNaN then float Binary64.nan
  else if keepFirst (a.compare b) then a else b

def min : Number → Number → Number := pick (· != .gt)

def max : Number → Number → Number := pick (· != .lt)

def rounded (f : Float → Float) : Number → Number
  | int n => int n
  | float x => float (f x)

def mulInt? (m n : Int64) : Option Int64 :=
  let p := m.toInt * n.toInt
  if Int64.minValue.toInt ≤ p ∧ p ≤ Int64.maxValue.toInt then some (Int64.ofInt p) else none

/-- Takes the last binary digit of an exponent into a product: a one multiplies it by the base. -/
def collect? (acc base : Int64) (e : Nat) : Option Int64 :=
  if e % 2 = 1 then mulInt? acc base else some acc

/-- A word times a power of another, if all products on the way are words.  The base is squared as
long as the exponent has more binary digits. -/
def mulPow? (acc base : Int64) (e : Nat) : Option Int64 :=
  if e ≤ 1 then collect? acc base e
  else do mulPow? (← collect? acc base e) (← mulInt? base base) (e / 2)
termination_by e

/-- The power of two words, if the exponent is from `0` to `2^32 - 1` and the power is a word. -/
def powInt? (base exponent : Int64) : Option Int64 :=
  let e := exponent.toInt
  if e < 0 ∨ (UInt32.size : Int) ≤ e then none else mulPow? 1 base e.toNat

/-- The power of two numbers: a word while it fits, else a float. -/
def pow : Number → Number → Number :=
  arith powInt? Float.pow

def isInfinite : Number → Bool
  | int _ => false
  | float x => Binary64.isInfinite x

end Number

/-- What the functions of a host compute, by their tags.  A host's code gets its arguments as values
and may do anything with the store; it calls functions of the language with `call`. -/
class Host where
  run (call : FunctionId → List Argument → Eval Value) (fuel : Nat) (f : HostFunction)
    (args : List Value) : Eval Value

namespace Native
open Eval

def argument (fuel : Nat) (args : List Value) (i : Nat) : Eval Value :=
  look (·.resolve fuel (args[i]?.getD .invalid))

def numberArgument (fuel : Nat) (args : List Value) (i : Nat) : Eval Number := do
  let v ← argument fuel args i
  look (·.toNumber fuel v)

/-- The number that the argument at a place stands for as an operand. -/
def operandArgument (fuel : Nat) (args : List Value) (i : Nat) : Eval Number := do
  let v ← argument fuel args i
  look (·.unaryOperand fuel v)

def arrayArgument (fuel : Nat) (args : List Value) (i : Nat) (who : String) : Eval ArrayId := do
  match ← argument fuel args i with
  | .array a => return a
  | v => fail (.native s!"{who}: expected an array, got {v.typeName}")

def functionArgument (fuel : Nat) (args : List Value) (i : Nat) (who : String) :
    Eval FunctionId := do
  match ← argument fuel args i with
  | .function f => return f
  | v => fail (.native s!"{who}: expected a function, got {v.typeName}")

def run [Host] (call : FunctionId → List Argument → Eval Value) (fuel : Nat) (code : Native)
    (args : List Value) : Eval Value :=
  match code with
  | .len => do
    match ← argument fuel args 0 with
    | .invalid => return .int 0
    | .array a => do
      let n ← view fun σ => (σ.items a).size
      return .int (Int64.ofNat n)
    | v => do
      let text ← look (·.display fuel v)
      return .int (Int64.ofNat text.length)
  -- The type of a reference is its own and not that of what it reaches.
  | .type => return .str (args.head?.getD .invalid).typeName
  | .int => return .int (← numberArgument fuel args 0).toInt64
  | .float => return .float (← numberArgument fuel args 0).toFloat
  | .str => do
    let v ← argument fuel args 0
    return .str (← look (·.display fuel v))
  | .bool => do
    let v ← argument fuel args 0
    return .bool (← look (·.toBool fuel v))
  | .isNaN => return .bool (← numberArgument fuel args 0).isNaN
  | .isInf => return .bool (← numberArgument fuel args 0).isInfinite
  | .abs => return .ofNumber (← numberArgument fuel args 0).abs
  | .min => return .ofNumber (.min (← operandArgument fuel args 0) (← operandArgument fuel args 1))
  | .max => return .ofNumber (.max (← operandArgument fuel args 0) (← operandArgument fuel args 1))
  | .clamp => do
    let x ← operandArgument fuel args 0
    let lo ← operandArgument fuel args 1
    let hi ← operandArgument fuel args 2
    return .ofNumber (.min (.max x lo) hi)
  | .floor => return .ofNumber (.rounded Float.floor (← numberArgument fuel args 0))
  | .ceil => return .ofNumber (.rounded Float.ceil (← numberArgument fuel args 0))
  | .round => return .ofNumber (.rounded Float.round (← numberArgument fuel args 0))
  | .sqrt => return .float (← numberArgument fuel args 0).toFloat.sqrt
  | .pow => return .ofNumber (.pow (← numberArgument fuel args 0) (← numberArgument fuel args 1))
  -- The value is stored as it is, so that an array can hold a reference.
  | .push => do
    let a ← arrayArgument fuel args 0 "push"
    alter (·.modifyArray a (·.push (args[1]?.getD .invalid)))
    let n ← view fun σ => (σ.items a).size
    return .int (Int64.ofNat n)
  | .pop => do
    let a ← arrayArgument fuel args 0 "pop"
    let last ← view fun σ => (σ.items a).back?.getD .invalid
    alter (·.modifyArray a Array.pop)
    return last
  | .join => do
    let a ← arrayArgument fuel args 0 "join"
    let v ← argument fuel args 1
    let separator ← look (·.display fuel v)
    return .str (← look (·.join fuel a separator))
  | .copy => do
    let v ← argument fuel args 0
    fun σ =>
      match σ.copy fuel v with
      | some (w, τ) => .done w τ
      | none => .exhausted
  | .bindFirst => do
    let f ← functionArgument fuel args 0 "partial"
    return .function (← fresh (·.newApplied f (args[1]?.getD .invalid)))
  | .compose => do
    let f ← functionArgument fuel args 0 "compose"
    let g ← functionArgument fuel args 1 "compose"
    return .function (← fresh (·.newComposite f g))
  | .host f => Host.run call fuel f args

end Native
end Scriptlet
