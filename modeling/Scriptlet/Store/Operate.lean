import Scriptlet.Operator
import Scriptlet.Store.Order

/-!
# Operators on values

Arithmetic is on words where both operands are words, and wraps; any other pair of numbers is added,
multiplied and so on as floats.  Bit operations work on the word views of their operands.

The rules are those of §4.3 of the specification.  Overflow wraps and what is unset counts as zero,
as §10.7 decides.
-/

namespace Scriptlet

/-! ## 1. Arithmetic on numbers

Word operations wrap around.  Only a zero divisor leaves the words. -/

namespace Number

/-- The word operation on two words if it is defined there, and the float operation otherwise. -/
def arith (ofInts : Int64 → Int64 → Option Int64) (ofFloats : Float → Float → Float)
    (a b : Number) : Number :=
  match a, b with
  | int m, int n =>
    match ofInts m n with
    | some k => int k
    | none => float (ofFloats (int m).toFloat (int n).toFloat)
  | a, b => float (ofFloats a.toFloat b.toFloat)

def add : Number → Number → Number := arith (fun m n => some (m + n)) (· + ·)

def sub : Number → Number → Number := arith (fun m n => some (m - n)) (· - ·)

def mul : Number → Number → Number := arith (fun m n => some (m * n)) (· * ·)

/-- Division truncates for words; a zero divisor divides as a float. -/
def div : Number → Number → Number :=
  arith (fun m n => if n = 0 then none else some (m / n)) (· / ·)

def mod : Number → Number → Number :=
  arith (fun m n => if n = 0 then none else some (m % n)) Binary64.remainder

def neg : Number → Number
  | int n => int (-n)
  | float x => float (-x)

end Number

/-! ## 2. Shifts

A shift to the right keeps the sign. -/

/-- Shifts a word to the left by the low six bits of the amount. -/
def shiftLeft (n amount : Int64) : Int64 := n <<< (amount &&& 63)

def shiftRight (n amount : Int64) : Int64 := n >>> (amount &&& 63)

namespace Store

/-! ## 3. Operands

Against a numeric value an array stands for the number that its text denotes.  Against any other
value, and as the only operand, it is NaN. -/

/-- Whether `+` takes a value as text. -/
def isTextual : Value → Bool
  | .str _ | .array _ => true
  | _ => false

/-- The number that an operand of an arithmetic operator stands for.  An array is read as a number
only against a numeric value. -/
def operand (σ : Store) (fuel : Nat) (v other : Value) : Option Number := do
  let v ← σ.resolve fuel v
  let other ← σ.resolve fuel other
  match v with
  | .array _ => if other.isNumeric then σ.toNumber fuel v else return .float Binary64.nan
  | .function _ => return .float Binary64.nan
  | _ => σ.toNumber fuel v

def unaryOperand (σ : Store) (fuel : Nat) (v : Value) : Option Number := do
  match ← σ.resolve fuel v with
  | .array _ | .function _ => return .float Binary64.nan
  | v => σ.toNumber fuel v

def numeric (σ : Store) (fuel : Nat) (op : Number → Number → Number) (l r : Value) :
    Option Value := do
  return .ofNumber (op (← σ.operand fuel l r) (← σ.operand fuel r l))

def bitwise (σ : Store) (fuel : Nat) (op : Int64 → Int64 → Int64) (l r : Value) : Option Value := do
  return .int (op (← σ.toInt fuel l) (← σ.toInt fuel r))

/-! ## 4. Binary operators

The evaluator decides which operands are evaluated at all; here both are values already. -/

/-- Joins texts if either operand is a string or an array, and adds numbers otherwise. -/
def add (σ : Store) (fuel : Nat) (l r : Value) : Option Value := do
  let l ← σ.resolve fuel l
  let r ← σ.resolve fuel r
  if isTextual l || isTextual r then return .str ((← σ.display fuel l) ++ (← σ.display fuel r))
  else σ.numeric fuel Number.add l r

def arith (σ : Store) (fuel : Nat) (op : ArithOp) (l r : Value) : Option Value :=
  match op with
  | .add => σ.add fuel l r
  | .sub => σ.numeric fuel Number.sub l r
  | .mul => σ.numeric fuel Number.mul l r
  | .div => σ.numeric fuel Number.div l r
  | .mod => σ.numeric fuel Number.mod l r
  | .shl => σ.bitwise fuel shiftLeft l r
  | .shr => σ.bitwise fuel shiftRight l r
  | .bitAnd => σ.bitwise fuel (· &&& ·) l r
  | .bitOr => σ.bitwise fuel (· ||| ·) l r
  | .bitXor => σ.bitwise fuel (· ^^^ ·) l r

def relation (σ : Store) (fuel : Nat) (op : RelationOp) (l r : Value) : Option Bool :=
  match op with
  | .eq => σ.looseEq fuel l r
  | .notEq => (σ.looseEq fuel l r).map (!·)
  | .identical => σ.identical fuel l r
  | .notIdentical => (σ.identical fuel l r).map (!·)
  | .less => σ.ordered fuel (· == .lt) l r
  | .lessEq => σ.ordered fuel (· != .gt) l r
  | .greater => σ.ordered fuel (· == .gt) l r
  | .greaterEq => σ.ordered fuel (· != .lt) l r

def orderingWord : Ordering → Int64
  | .lt => -1
  | .eq => 0
  | .gt => 1

/-- A binary operator on two values.  An updating operator gives what it would assign. -/
def binary (σ : Store) (fuel : Nat) (op : BinaryOp) (l r : Value) : Option Value :=
  match op with
  | .arith op => σ.arith fuel op l r
  | .and => do
    if ← σ.toBool fuel l then return .bool (← σ.toBool fuel r) else return .bool false
  | .or => do
    if ← σ.toBool fuel l then return .bool true else return .bool (← σ.toBool fuel r)
  | .relation op => (σ.relation fuel op l r).map .bool
  | .spaceship => (σ.compare fuel l r).map (.int <| orderingWord ·)
  | .assign => some r
  | .update op => σ.arith fuel op l r

/-! ## 5. Unary operators

A step is an addition of one, so it wraps as an addition does and turns texts into numbers. -/

def plus (σ : Store) (fuel : Nat) (v : Value) : Option Value :=
  (σ.unaryOperand fuel v).map .ofNumber

def neg (σ : Store) (fuel : Nat) (v : Value) : Option Value :=
  (σ.unaryOperand fuel v).map (.ofNumber ·.neg)

def not (σ : Store) (fuel : Nat) (v : Value) : Option Value :=
  (σ.toBool fuel v).map (.bool !·)

def bitNot (σ : Store) (fuel : Nat) (v : Value) : Option Value :=
  (σ.toInt fuel v).map fun n => .int (~~~n)

def step (σ : Store) (fuel : Nat) (op : StepOp) (v : Value) : Option Value :=
  (σ.unaryOperand fuel v).map fun n =>
    .ofNumber (n.add (.int (match op with | .increment => 1 | .decrement => -1)))

end Store
end Scriptlet
