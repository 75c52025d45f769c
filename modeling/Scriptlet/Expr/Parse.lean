import Scriptlet.Expr
import Scriptlet.Parser

/-!
# Parsing expressions

An expression is an operand followed by operators that bind tighter than the level asked for.  All
functions take fuel, which decreases in every call; more fuel than there are tokens, by a constant
factor, is always enough.

This is the precedence climbing of §4.2 of the specification: `operand?` is its `FindPrefixOp`, and
`continueWith` its `FindBinaryOp`.
-/

namespace Scriptlet.Expr
open Scriptlet.Parser

inductive Continuation where
  | binary (op : BinaryOp)
  | ternary
  | call
  | subscript
  | step (op : StepOp)
  deriving DecidableEq, Repr

namespace Continuation

def level : Continuation → Nat
  | binary op => op.level
  | ternary => Level.assignment
  | call => Level.trailing
  | subscript => Level.trailing
  | step _ => Level.trailing

def ofKind? : TokenKind → Option Continuation
  | .symbol .lparen => some call
  | .symbol .lbracket => some subscript
  | .symbol .plusPlus => some (step .increment)
  | .symbol .minusMinus => some (step .decrement)
  | .symbol .question => some ternary
  | .symbol s => (BinaryOp.ofSymbol? s).map binary
  | _ => none

/-- Whether a continuation is taken where operators above a level are wanted.  Only the operators
at the level of assignment group to the right. -/
def takenAt (k : Continuation) (level : Nat) : Bool :=
  level < k.level || (k.level == Level.assignment && level == Level.assignment)

end Continuation

def unaryOf? : TokenKind → Option UnaryOp
  | .symbol s => UnaryOp.ofSymbol? s
  | _ => none

def argumentName : Parser (Option String) := do
  let t ← peek
  let next ← peekSecond
  match t.kind, next with
  | .ident name, some (.symbol .colon) => do
    advance
    advance
    return some name
  | _, _ => return none

mutual
/-- An expression whose operators are all above the level, or nothing if none starts here. -/
def parse? (fuel : Nat) (level : Nat) : Parser (Option Expr) :=
  match fuel with
  | 0 => exhausted
  | n + 1 => do
    match ← operand? n with
    | some left => return some (← extend n level left)
    | none => return none

/-- An operand: a literal, a name, a list, a group or a unary operation. -/
def operand? (fuel : Nat) : Parser (Option Expr) :=
  match fuel with
  | 0 => exhausted
  | n + 1 => do
    let t ← peek
    match unaryOf? t.kind with
    | some op => do
      advance
      let e ← require .expression (parse? n Level.unary)
      return some (.unary op e t.position)
    | none =>
      match t.kind with
      | .int v => do advance; return some (.int v t.position)
      | .float v => do advance; return some (.float v t.position)
      | .bool v => do advance; return some (.bool v t.position)
      | .ident name => do advance; return some (.var name t.position)
      | .strOpen => do
        advance
        let parts ← stringParts n
        return some (Part.literal parts t.position)
      | .symbol .lparen => do
        advance
        let e ← require .expression (parse? n Level.lowest)
        expect .rparen
        return some e
      | .symbol .lbracket => do
        advance
        let items ← listItems n
        expect .rbracket
        return some (.list items t.position)
      | _ => return none

/-- Extends an expression to its right by all continuations taken at the level. -/
def extend (fuel : Nat) (level : Nat) (left : Expr) : Parser Expr :=
  match fuel with
  | 0 => exhausted
  | n + 1 => do
    match Continuation.ofKind? (← peek).kind with
    | some k =>
      if k.takenAt level then do
        advance
        let longer ← continueWith n left k
        extend n level longer
      else return left
    | none => return left

/-- The expression that a continuation makes of the one to its left; its first token is consumed
already. -/
def continueWith (fuel : Nat) (left : Expr) (k : Continuation) : Parser Expr :=
  match fuel with
  | 0 => exhausted
  | n + 1 =>
    match k with
    | .binary op => do
      let right ← require .expression (parse? n op.level)
      return .binary op left right left.pos
    | .ternary => do
      let whenTrue ← require .expression (parse? n Level.lowest)
      expect .colon
      let whenFalse ← require .expression (parse? n Level.assignment)
      return .ternary left whenTrue whenFalse left.pos
    | .call => do
      let args ← arguments n
      expect .rparen
      return .call left args left.pos
    | .subscript => do
      let index ← require .expression (parse? n Level.lowest)
      expect .rbracket
      return .subscript left index left.pos
    | .step op => return .trailing op left left.pos

/-- The items of a list up to its closing bracket; a comma may follow the last one. -/
def listItems (fuel : Nat) : Parser (List Expr) :=
  match fuel with
  | 0 => exhausted
  | n + 1 => do
    if (← check (.symbol .rbracket)) || (← atEnd) then return []
    else do
      let item ← require .expression (parse? n Level.lowest)
      if ← accept (.symbol .comma) then return item :: (← listItems n)
      else return [item]

/-- The arguments of a call up to its closing parenthesis; a comma may follow the last one.  An
identifier before a colon names its argument. -/
def arguments (fuel : Nat) : Parser (List Arg) :=
  match fuel with
  | 0 => exhausted
  | n + 1 => do
    if (← check (.symbol .rparen)) || (← atEnd) then return []
    else do
      let name ← argumentName
      let value ← require .expression (parse? n Level.lowest)
      if ← accept (.symbol .comma) then return ⟨name, value⟩ :: (← arguments n)
      else return [⟨name, value⟩]

def stringParts (fuel : Nat) : Parser (List Part) :=
  match fuel with
  | 0 => exhausted
  | n + 1 => do
    match (← peek).kind with
    | .strText text => do
      advance
      return .text text :: (← stringParts n)
    | .interpOpen => do
      advance
      let e ← require .expression (parse? n Level.lowest)
      if ← accept .interpClose then return .expr e :: (← stringParts n)
      else missing (.spelled "\x7d")
    | .strClose => do
      advance
      return []
    | _ => unexpected .endOfString
end

end Scriptlet.Expr
