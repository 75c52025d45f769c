import Scriptlet.Operator

/-!
# Expressions

Every node carries the position at which errors about it are reported: the operator for a unary
operation, and the beginning of the leftmost operand for any other compound expression.

The forms are those of `IExpression` in §3 of the specification, with `&` of §10.6 among the unary
operators.
-/

namespace Scriptlet

mutual
inductive Expr where
  | bool (value : Bool) (pos : Position)
  | int (value : Int64) (pos : Position)
  | float (value : Float) (pos : Position)
  | str (text : String) (pos : Position)
  /-- A string literal with embedded expressions. -/
  | interpolation (parts : List Part) (pos : Position)
  | list (items : List Expr) (pos : Position)
  | var (name : String) (pos : Position)
  | unary (op : UnaryOp) (operand : Expr) (pos : Position)
  /-- A step written behind its operand. -/
  | trailing (op : StepOp) (operand : Expr) (pos : Position)
  | binary (op : BinaryOp) (left right : Expr) (pos : Position)
  | ternary (condition whenTrue whenFalse : Expr) (pos : Position)
  | call (callee : Expr) (args : List Arg) (pos : Position)
  | subscript (target index : Expr) (pos : Position)
inductive Part where
  | text (text : String)
  | expr (e : Expr)
/-- An argument of a call, named if it was written `name: value`. -/
inductive Arg where
  | mk (name : Option String) (value : Expr)
end

namespace Expr

def pos : Expr → Position
  | bool _ p => p
  | int _ p => p
  | float _ p => p
  | str _ p => p
  | interpolation _ p => p
  | list _ p => p
  | var _ p => p
  | unary _ _ p => p
  | trailing _ _ p => p
  | binary _ _ _ p => p
  | ternary _ _ _ p => p
  | call _ _ p => p
  | subscript _ _ p => p

end Expr

/-- The literal with these parts: a plain string unless an expression is embedded. -/
def Part.literal (parts : List Part) (pos : Position) : Expr :=
  let texts := parts.mapM fun
    | .text t => some t
    | .expr _ => none
  match texts with
  | some ts => .str (String.join ts) pos
  | none => .interpolation parts pos

end Scriptlet
