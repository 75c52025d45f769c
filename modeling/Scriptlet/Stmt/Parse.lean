import Scriptlet.Expr.Parse
import Scriptlet.Stmt

/-!
# Parsing statements and programs

Statements follow each other without separators: a semicolon may end a simple statement, and a token
that begins no statement is skipped.

The statements are those of §4.2 of the specification.
-/

namespace Scriptlet.Stmt
open Scriptlet.Parser

def parseExpression (fuel : Nat) : Parser Expr :=
  require .expression (Expr.parse? fuel Level.lowest)

def parseCondition (fuel : Nat) : Parser Expr := do
  expect .lparen
  let e ← parseExpression fuel
  expect .rparen
  return e

def optionalSemicolon : Parser Unit := do
  let _ ← accept (.symbol .semicolon)

def parseLabels (fuel : Nat) : Parser (List Label) :=
  match fuel with
  | 0 => exhausted
  | n + 1 => do
    if ← accept (.keyword .kwCase) then do
      let value ← parseExpression n
      expect .colon
      return .case value :: (← parseLabels n)
    else if ← accept (.keyword .kwDefault) then do
      expect .colon
      return .default :: (← parseLabels n)
    else return []

def parseSomeLabels (fuel : Nat) : Parser (List Label) := do
  match ← parseLabels fuel with
  | [] => unexpected .sectionLabel
  | ls => return ls

def paramDefault (fuel : Nat) (name : String) : Parser (Option Expr) := do
  if ← accept (.symbol .assign) then do
    match ← Expr.parse? fuel Level.assignment with
    | some e => return some e
    | none => fail fun _ => .missingDefault name
  else return none

/-- The parameters of a function up to the closing parenthesis; a comma may follow the last one. -/
def parseParams (fuel : Nat) : Parser (List Param) :=
  match fuel with
  | 0 => exhausted
  | n + 1 => do
    if (← check (.symbol .rparen)) || (← atEnd) then return []
    else do
      let pos := (← peek).position
      let name ← identifier
      let default ← paramDefault n name
      if ← accept (.symbol .comma) then return ⟨name, default, pos⟩ :: (← parseParams n)
      else return [⟨name, default, pos⟩]

def endsBlock (kind : TokenKind) : Bool := kind = .symbol .rbrace

def endsSection (kind : TokenKind) : Bool :=
  kind = .keyword .kwCase || kind = .keyword .kwDefault || kind = .symbol .rbrace

mutual
/-- Statements up to the end of the input or a token for which `stop` holds. -/
def parseMany (fuel : Nat) (stop : TokenKind → Bool) : Parser (List Stmt) :=
  match fuel with
  | 0 => exhausted
  | n + 1 => do
    if (← atEnd) || stop (← peek).kind then return []
    else do
      match ← parse? n with
      | some s => return s :: (← parseMany n stop)
      | none => do
        advance
        parseMany n stop

/-- A statement, or nothing if none starts here. -/
def parse? (fuel : Nat) : Parser (Option Stmt) :=
  match fuel with
  | 0 => exhausted
  | n + 1 => do
    let t ← peek
    match t.kind with
    | .symbol .lbrace => return some (.block (← parseBlock n) t.position)
    | .keyword .kwIf => do
      advance
      let cond ← parseCondition n
      let whenTrue ← parseBody n
      if ← accept (.keyword .kwElse) then
        return some (.ifElse cond whenTrue (some (← parseBody n)) t.position)
      else return some (.ifElse cond whenTrue none t.position)
    | .keyword .kwSwitch => do
      advance
      let subject ← parseCondition n
      if ← accept (.symbol .lbrace) then do
        let sections ← parseSections n
        expect .rbrace
        return some (.switch subject sections t.position)
      else do
        let ls ← parseSomeLabels n
        let s ← parseBody n
        return some (.switch subject [⟨ls, [s]⟩] t.position)
    | .keyword .kwWhile => do
      advance
      let cond ← parseCondition n
      return some (.whileLoop cond (← parseBody n) t.position)
    | .keyword .kwFor => do
      advance
      expect .lparen
      let init ← Expr.parse? n Level.lowest
      expect .semicolon
      let cond ← Expr.parse? n Level.lowest
      expect .semicolon
      let step ← Expr.parse? n Level.lowest
      expect .rparen
      return some (.forLoop init cond step (← parseBody n) t.position)
    | .keyword .kwFn => do
      advance
      let name ← identifier
      expect .lparen
      let ps ← parseParams n
      expect .rparen
      if ← check (.symbol .lbrace) then
        return some (.declare ⟨name, ps, ← parseBlock n, t.position⟩)
      else fail fun _ => .missingBody name
    | .keyword .kwBreak => do
      advance
      optionalSemicolon
      return some (.breakLoop t.position)
    | .keyword .kwContinue => do
      advance
      optionalSemicolon
      return some (.continueLoop t.position)
    | .keyword .kwReturn => do
      advance
      let value ← Expr.parse? n Level.lowest
      optionalSemicolon
      return some (.returnValue value t.position)
    | _ => do
      match ← Expr.parse? n Level.lowest with
      | some e => do
        optionalSemicolon
        return some (.expr e)
      | none => return none

/-- The statement in the body of another one; a lone semicolon is an empty block. -/
def parseBody (fuel : Nat) : Parser Stmt :=
  match fuel with
  | 0 => exhausted
  | n + 1 => do
    let t ← peek
    if ← accept (.symbol .semicolon) then return .block [] t.position
    else require .statement (parse? n)

def parseBlock (fuel : Nat) : Parser (List Stmt) :=
  match fuel with
  | 0 => exhausted
  | n + 1 => do
    expect .lbrace
    let stmts ← parseMany n endsBlock
    expect .rbrace
    return stmts

def parseSections (fuel : Nat) : Parser (List Section) :=
  match fuel with
  | 0 => exhausted
  | n + 1 => do
    if (← check (.symbol .rbrace)) || (← atEnd) then return []
    else do
      let ls ← parseSomeLabels n
      let stmts ← parseMany n endsSection
      return ⟨ls, stmts⟩ :: (← parseSections n)
end

end Scriptlet.Stmt

namespace Scriptlet.Program

/-- Fuel that is enough to parse this many tokens. -/
def parseFuel (tokenCount : Nat) : Nat := 8 * tokenCount + 8

/-- The program that a list of tokens spells (`Parse` of §4.2). -/
def parse (tokens : List Token) : ParseResult Program :=
  Stmt.parseMany (parseFuel tokens.length) (fun _ => false) (Cursor.ofTokens tokens)

end Scriptlet.Program
