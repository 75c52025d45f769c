import Scriptlet.Token

/-!
# Operators and how tightly they bind

Every operator that combines two numbers or bit patterns also has an updating form, such as `+=` for
`+`, which is why those operators are a type of their own.

The operators and their levels are those of `FindPrefixOp` and `FindBinaryOp` in §4.2 of the
specification.
-/

namespace Scriptlet

/-! ## 1. Operators -/

inductive StepOp where
  | increment
  | decrement
  deriving DecidableEq, Repr

inductive UnaryOp where
  | plus
  | neg
  | not
  | bitNot
  | step (op : StepOp)
  /-- Takes a reference to an assignable expression. -/
  | ref
  deriving DecidableEq, Repr

/-- Operators on two numbers or bit patterns. -/
inductive ArithOp where
  | add | sub | mul | div | mod | shl | shr | bitAnd | bitOr | bitXor
  deriving DecidableEq, Repr

inductive RelationOp where
  | eq | notEq | identical | notIdentical | less | lessEq | greater | greaterEq
  deriving DecidableEq, Repr

inductive BinaryOp where
  | arith (op : ArithOp)
  | and
  | or
  | relation (op : RelationOp)
  /-- The three-way comparison. -/
  | spaceship
  | assign
  /-- Assignment of the result of an operation on the old value. -/
  | update (op : ArithOp)
  deriving DecidableEq, Repr

namespace ArithOp

def symbol : ArithOp → Symbol
  | add => .plus
  | sub => .minus
  | mul => .star
  | div => .slash
  | mod => .percent
  | shl => .shl
  | shr => .shr
  | bitAnd => .amp
  | bitOr => .pipe
  | bitXor => .caret

/-- The symbol of the updating form. -/
def updateSymbol : ArithOp → Symbol
  | add => .plusAssign
  | sub => .minusAssign
  | mul => .starAssign
  | div => .slashAssign
  | mod => .percentAssign
  | shl => .shlAssign
  | shr => .shrAssign
  | bitAnd => .ampAssign
  | bitOr => .pipeAssign
  | bitXor => .caretAssign

end ArithOp

def RelationOp.symbol : RelationOp → Symbol
  | eq => .equal
  | notEq => .notEqual
  | identical => .identical
  | notIdentical => .notIdentical
  | less => .less
  | lessEq => .lessEqual
  | greater => .greater
  | greaterEq => .greaterEqual

namespace BinaryOp

def symbol : BinaryOp → Symbol
  | arith op => op.symbol
  | and => .andAnd
  | or => .orOr
  | relation op => op.symbol
  | spaceship => .spaceship
  | assign => .assign
  | update op => op.updateSymbol

def ofSymbol? : Symbol → Option BinaryOp
  | .plus => some (arith .add)
  | .minus => some (arith .sub)
  | .star => some (arith .mul)
  | .slash => some (arith .div)
  | .percent => some (arith .mod)
  | .shl => some (arith .shl)
  | .shr => some (arith .shr)
  | .amp => some (arith .bitAnd)
  | .pipe => some (arith .bitOr)
  | .caret => some (arith .bitXor)
  | .andAnd => some and
  | .orOr => some or
  | .equal => some (relation .eq)
  | .notEqual => some (relation .notEq)
  | .identical => some (relation .identical)
  | .notIdentical => some (relation .notIdentical)
  | .less => some (relation .less)
  | .lessEqual => some (relation .lessEq)
  | .greater => some (relation .greater)
  | .greaterEqual => some (relation .greaterEq)
  | .spaceship => some spaceship
  | .assign => some assign
  | .plusAssign => some (update .add)
  | .minusAssign => some (update .sub)
  | .starAssign => some (update .mul)
  | .slashAssign => some (update .div)
  | .percentAssign => some (update .mod)
  | .shlAssign => some (update .shl)
  | .shrAssign => some (update .shr)
  | .ampAssign => some (update .bitAnd)
  | .pipeAssign => some (update .bitOr)
  | .caretAssign => some (update .bitXor)
  | _ => none

theorem ofSymbol?_symbol (op : BinaryOp) : ofSymbol? op.symbol = some op := by
  cases op with
  | arith op => cases op <;> rfl
  | and => rfl
  | or => rfl
  | relation op => cases op <;> rfl
  | spaceship => rfl
  | assign => rfl
  | update op => cases op <;> rfl

end BinaryOp

namespace UnaryOp

def symbol : UnaryOp → Symbol
  | plus => .plus
  | neg => .minus
  | not => .bang
  | bitNot => .tilde
  | step .increment => .plusPlus
  | step .decrement => .minusMinus
  | ref => .amp

def ofSymbol? : Symbol → Option UnaryOp
  | .plus => some plus
  | .minus => some neg
  | .bang => some not
  | .tilde => some bitNot
  | .plusPlus => some (step .increment)
  | .minusMinus => some (step .decrement)
  | .amp => some ref
  | _ => none

theorem ofSymbol?_symbol (op : UnaryOp) : ofSymbol? op.symbol = some op := by
  cases op with
  | plus => rfl
  | neg => rfl
  | not => rfl
  | bitNot => rfl
  | step op => cases op <;> rfl
  | ref => rfl

end UnaryOp

/-! ## 2. Levels

A higher level binds tighter.  Operators of one level group to the left, except at the
level of assignment. -/

namespace Level

abbrev lowest : Nat := 0
/-- Assignment, its updating forms and the conditional operator. -/
abbrev assignment : Nat := 1
abbrev logicalOr : Nat := 2
abbrev logicalAnd : Nat := 3
abbrev bitOr : Nat := 4
abbrev bitXor : Nat := 5
abbrev bitAnd : Nat := 6
abbrev equality : Nat := 7
abbrev relational : Nat := 8
abbrev spaceship : Nat := 9
abbrev shift : Nat := 10
abbrev additive : Nat := 11
abbrev multiplicative : Nat := 12
abbrev unary : Nat := 13
/-- Calls, subscripts and steps behind their operand. -/
abbrev trailing : Nat := 14

end Level

def ArithOp.level : ArithOp → Nat
  | mul | div | mod => Level.multiplicative
  | add | sub => Level.additive
  | shl | shr => Level.shift
  | bitAnd => Level.bitAnd
  | bitXor => Level.bitXor
  | bitOr => Level.bitOr

def RelationOp.level : RelationOp → Nat
  | less | lessEq | greater | greaterEq => Level.relational
  | eq | notEq | identical | notIdentical => Level.equality

def BinaryOp.level : BinaryOp → Nat
  | arith op => op.level
  | and => Level.logicalAnd
  | or => Level.logicalOr
  | relation op => op.level
  | spaceship => Level.spaceship
  | assign => Level.assignment
  | update _ => Level.assignment

end Scriptlet
