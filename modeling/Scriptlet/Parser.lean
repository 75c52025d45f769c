import Scriptlet.Error
import Scriptlet.Token

/-!
# Parsing from a list of tokens

A parser walks a cursor over the tokens.  The cursor remembers the token before it, because an error
at the end of the input is reported just behind the last token that was consumed.

The place of an error is the one that §4.2 of the specification asks for, computed from the last
token that was consumed.
-/

namespace Scriptlet

/-! ## 1. Cursors

The list of tokens ends with a mark that no cursor passes, so that there always is a next token. -/

structure Cursor where
  previous : Option Token
  rest : List Token
  deriving DecidableEq, Repr

namespace Cursor

def ofTokens (tokens : List Token) : Cursor := ⟨none, tokens⟩

/-- The next token; a list without an end mark ends at the position of its last token. -/
def peek (c : Cursor) : Token :=
  match c.rest with
  | t :: _ => t
  | [] => ⟨.eof, "", (c.previous.map (·.position)).getD .start⟩

def atEnd (c : Cursor) : Bool := c.peek.kind = .eof

/-- The cursor behind the next token; the end of the input is never passed. -/
def advance (c : Cursor) : Cursor :=
  match c.rest with
  | t :: more => if t.kind = .eof then c else ⟨some t, more⟩
  | [] => c

/-- What an error message says about the next token. -/
def found (c : Cursor) : Found :=
  if c.atEnd then .endOfInput else .lexeme c.peek.lexeme

/-- Where an error is reported: at the next token, or behind the last consumed one at the end of the
input. -/
def errorPosition (c : Cursor) : Position :=
  match c.atEnd, c.previous with
  | true, some t => t.position.right (max 1 t.lexeme.length)
  | _, _ => c.peek.position

end Cursor

/-! ## 2. Parsers

A parser that does not find its phrase refuses the input, or gives `none` without consuming anything
if the phrase may be absent. -/

/-- The result of a parser.  Running out of fuel is kept apart from a refusal. -/
inductive ParseResult (α : Type) where
  | ok (value : α) (rest : Cursor)
  | error (e : SyntaxError)
  | exhausted

def Parser (α : Type) : Type := Cursor → ParseResult α

namespace Parser

instance : Monad Parser where
  pure a := fun c => .ok a c
  bind p f := fun c =>
    match p c with
    | .ok a rest => f a rest
    | .error e => .error e
    | .exhausted => .exhausted

def exhausted {α : Type} : Parser α := fun _ => .exhausted

def fail {α : Type} (fault : Cursor → SyntaxFault) : Parser α :=
  fun c => .error ⟨fault c, c.errorPosition⟩

def peek : Parser Token := fun c => .ok c.peek c

def peekSecond : Parser (Option TokenKind) :=
  fun c => .ok ((c.rest.drop 1).head?.map (·.kind)) c

def atEnd : Parser Bool := fun c => .ok c.atEnd c

def advance : Parser Unit := fun c => .ok () c.advance

/-- Refuses the input because no phrase of the wanted kind starts here. -/
def unexpected {α : Type} (wanted : Wanted) : Parser α :=
  fail fun c => .unexpected wanted c.found

/-- Refuses the input because the wanted token is not next. -/
def missing {α : Type} (wanted : Wanted) : Parser α :=
  fail fun c => .missing wanted c.found

def check (kind : TokenKind) : Parser Bool :=
  fun c => .ok (c.peek.kind = kind) c

/-- Consumes the next token if it is of this kind, and says whether it was. -/
def accept (kind : TokenKind) : Parser Bool :=
  fun c => if c.peek.kind = kind then .ok true c.advance else .ok false c

def expect (s : Symbol) : Parser Unit := do
  if ← accept (.symbol s) then pure () else missing (.spelled s.spelling)

def identifier : Parser String := do
  match (← peek).kind with
  | .ident name => do advance; return name
  | _ => missing .identifier

/-- Turns an absent phrase into a refusal. -/
def require {α : Type} (wanted : Wanted) (p : Parser (Option α)) : Parser α := do
  match ← p with
  | some a => return a
  | none => unexpected wanted

end Parser
end Scriptlet
