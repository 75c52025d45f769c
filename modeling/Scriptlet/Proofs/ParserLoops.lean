import Scriptlet.Proofs.Cursor
import Scriptlet.Stmt.Parse

/-!
# The loops of the parser

Items, arguments, parts of literals, statements, sections, labels and parameters are all read in the
same way: turn after turn, until a turn is the last one or there is no turn to take.  `loop` is that
way of reading, and each of the seven parsers is it for one kind of turn (`listItems_eq_loop` and
the equations after it).  The operators of an expression are read in turns as well, which hand on
the expression read so far (`extend_eq_turn`).

The loops are those of §4.2 of the specification.
-/

namespace Scriptlet

/-! ## 1. Turns

The number that a loop counts down is its fuel.  It is handed to the turn as well. -/

namespace Parser

/-- What one turn of a loop comes to. -/
inductive Turn (α : Type) where
  /-- There is nothing to take the turn for. -/
  | out
  /-- The turn gives these items and is the last one. -/
  | last (items : List α)
  /-- The turn gives these items and another one follows. -/
  | next (items : List α)

def loop {α : Type} (turn : Nat → Parser (Turn α)) (fuel : Nat) : Parser (List α) :=
  match fuel with
  | 0 => exhausted
  | n + 1 => do
    match ← turn n with
    | .out => return []
    | .last items => return items
    | .next items => return items ++ (← loop turn n)

/-- A sequence whose second part is a sequence itself may be grouped either way. -/
theorem bind_eq_bind_bind {α β γ : Type} {p : Parser α} {f : α → Parser β} {g : β → Parser γ}
    {h : α → Parser γ} (heq : ∀ a, h a = f a >>= g) : p >>= h = (p >>= f) >>= g := by
  funext c
  simp only [Bind.bind]
  cases p c with
  | ok a d => exact congrFun (heq a) d
  | error e => rfl
  | exhausted => rfl

theorem bind_pure_eq {α : Type} (p : Parser α) : (p >>= fun a => pure a) = p := by
  funext c
  simp only [Bind.bind]
  cases p c <;> rfl

end Parser

open Scriptlet.Parser

/-! ## 2. Expressions

What one turn of each loop does, and that the parser is the loop of its turns. -/

namespace Expr

def listTurn (n : Nat) : Parser (Turn Expr) := do
  if (← check (.symbol .rbracket)) || (← atEnd) then return .out
  else do
    let item ← require .expression (parse? n Level.lowest)
    if ← accept (.symbol .comma) then return .next [item] else return .last [item]

def argumentTurn (n : Nat) : Parser (Turn Arg) := do
  if (← check (.symbol .rparen)) || (← atEnd) then return .out
  else do
    let name ← argumentName
    let value ← require .expression (parse? n Level.lowest)
    if ← accept (.symbol .comma) then return .next [⟨name, value⟩] else return .last [⟨name, value⟩]

def partTurn (n : Nat) : Parser (Turn Part) := do
  match (← peek).kind with
  | .strText text => do
    advance
    return .next [.text text]
  | .interpOpen => do
    advance
    let e ← require .expression (parse? n Level.lowest)
    if ← accept .interpClose then return .next [.expr e] else missing (.spelled "\x7d")
  | .strClose => do
    advance
    return .last []
  | _ => unexpected .endOfString

/-- The expression that the next operator makes of the one to its left, if there is an operator at
the level. -/
def operatorTurn (n level : Nat) (left : Expr) : Parser (Option Expr) := do
  match Continuation.ofKind? (← peek).kind with
  | some k =>
    if k.takenAt level then do
      advance
      let longer ← continueWith n left k
      return some longer
    else return none
  | none => return none

/-- The comma decides whether another turn follows. -/
theorem listItems_eq_loop (n : Nat) : listItems n = loop listTurn n := by
  induction n with
  | zero => rfl
  | succ n ih =>
    refine bind_eq_bind_bind fun closed => bind_eq_bind_bind fun ended => ?_
    split
    · rfl
    · refine bind_eq_bind_bind fun item => bind_eq_bind_bind fun more => ?_
      rw [ih]
      cases more <;> rfl

theorem arguments_eq_loop (n : Nat) : arguments n = loop argumentTurn n := by
  induction n with
  | zero => rfl
  | succ n ih =>
    refine bind_eq_bind_bind fun closed => bind_eq_bind_bind fun ended => ?_
    split
    · rfl
    · refine bind_eq_bind_bind fun name => bind_eq_bind_bind fun value => bind_eq_bind_bind
        fun more => ?_
      rw [ih]
      cases more <;> rfl

/-- The closing quote is a turn of its own, and the last one. -/
theorem stringParts_eq_loop (n : Nat) : stringParts n = loop partTurn n := by
  induction n with
  | zero => rfl
  | succ n ih =>
    refine bind_eq_bind_bind fun t => ?_
    rw [← ih]
    generalize t.kind = kind
    cases kind with
    | strText text => exact bind_eq_bind_bind fun _ => rfl
    | interpOpen =>
      refine bind_eq_bind_bind fun _ => bind_eq_bind_bind fun e => bind_eq_bind_bind
        fun closed => ?_
      cases closed <;> rfl
    | strClose => exact bind_eq_bind_bind fun _ => rfl
    | _ => rfl

/-- The operators of an expression are read turn by turn. -/
theorem extend_eq_turn (n level : Nat) (left : Expr) :
    extend (n + 1) level left =
      operatorTurn n level left >>= fun longer? => longer?.elim (pure left) (extend n level) := by
  refine bind_eq_bind_bind fun t => ?_
  cases Continuation.ofKind? t.kind with
  | none => rfl
  | some k =>
    simp only
    split
    · exact bind_eq_bind_bind fun _ => bind_eq_bind_bind fun longer => rfl
    · rfl

end Expr

/-! ## 3. Statements -/

namespace Stmt

def labelTurn (n : Nat) : Parser (Turn Label) := do
  if ← accept (.keyword .kwCase) then do
    let value ← parseExpression n
    expect .colon
    return .next [.case value]
  else if ← accept (.keyword .kwDefault) then do
    expect .colon
    return .next [.default]
  else return .out

def paramTurn (n : Nat) : Parser (Turn Param) := do
  if (← check (.symbol .rparen)) || (← atEnd) then return .out
  else do
    let pos := (← peek).position
    let name ← identifier
    let default ← paramDefault n name
    if ← accept (.symbol .comma) then return .next [⟨name, default, pos⟩]
    else return .last [⟨name, default, pos⟩]

/-- A token that starts no statement is skipped. -/
def statementTurn (stop : TokenKind → Bool) (n : Nat) : Parser (Turn Stmt) := do
  if (← atEnd) || stop (← peek).kind then return .out
  else do
    match ← parse? n with
    | some s => return .next [s]
    | none => do
      advance
      return .next []

def sectionTurn (n : Nat) : Parser (Turn Section) := do
  if (← check (.symbol .rbrace)) || (← atEnd) then return .out
  else do
    let ls ← parseSomeLabels n
    let stmts ← parseMany n endsSection
    return .next [⟨ls, stmts⟩]

theorem parseLabels_eq_loop (n : Nat) : parseLabels n = loop labelTurn n := by
  induction n with
  | zero => rfl
  | succ n ih =>
    refine bind_eq_bind_bind fun isCase => ?_
    rw [← ih]
    split
    · exact bind_eq_bind_bind fun value => bind_eq_bind_bind fun _ => rfl
    · refine bind_eq_bind_bind fun isDefault => ?_
      split
      · exact bind_eq_bind_bind fun _ => rfl
      · rfl

theorem parseParams_eq_loop (n : Nat) : parseParams n = loop paramTurn n := by
  induction n with
  | zero => rfl
  | succ n ih =>
    refine bind_eq_bind_bind fun closed => bind_eq_bind_bind fun ended => ?_
    split
    · rfl
    · refine bind_eq_bind_bind fun t => bind_eq_bind_bind fun name => bind_eq_bind_bind
        fun default => ?_
      refine bind_eq_bind_bind fun more => ?_
      rw [ih]
      cases more <;> rfl

/-- A turn that skips a token gives nothing, and the loop goes on. -/
theorem parseMany_eq_loop (stop : TokenKind → Bool) (n : Nat) :
    parseMany n stop = loop (statementTurn stop) n := by
  induction n with
  | zero => rfl
  | succ n ih =>
    refine bind_eq_bind_bind fun ended => bind_eq_bind_bind fun t => ?_
    rw [← ih]
    split
    · rfl
    · refine bind_eq_bind_bind fun result => ?_
      cases result with
      | some s => rfl
      | none => exact bind_eq_bind_bind fun _ => (bind_pure_eq _).symm

theorem parseSections_eq_loop (n : Nat) : parseSections n = loop sectionTurn n := by
  induction n with
  | zero => rfl
  | succ n ih =>
    refine bind_eq_bind_bind fun closed => bind_eq_bind_bind fun ended => ?_
    rw [← ih]
    split
    · rfl
    · exact bind_eq_bind_bind fun ls => bind_eq_bind_bind fun stmts => rfl

end Stmt
end Scriptlet
