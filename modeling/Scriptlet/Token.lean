import Scriptlet.Position

/-!
# Tokens

A string literal is a sequence of tokens, so that the expressions embedded in it are ordinary tokens
too: `"a{x}b"` is an opening quote, text, an opening brace, `x`, a closing brace, text and a closing
quote.

Tokens are those of §3 of the specification; that a literal is several of them is how §4.1 has the
scanner track the nesting of embedded expressions.
-/

namespace Scriptlet

/-! ## 1. Keywords -/

/-- The reserved words other than the truth values. -/
inductive Keyword where
  | kwIf | kwElse | kwSwitch | kwCase | kwDefault | kwWhile
  | kwBreak | kwContinue | kwFor | kwReturn | kwFn
  deriving DecidableEq, Repr

namespace Keyword

def all : List Keyword :=
  [kwIf, kwElse, kwSwitch, kwCase, kwDefault, kwWhile, kwBreak, kwContinue, kwFor, kwReturn, kwFn]

def spelling : Keyword → String
  | kwIf => "if"
  | kwElse => "else"
  | kwSwitch => "switch"
  | kwCase => "case"
  | kwDefault => "default"
  | kwWhile => "while"
  | kwBreak => "break"
  | kwContinue => "continue"
  | kwFor => "for"
  | kwReturn => "return"
  | kwFn => "fn"

def listed : Keyword → String
  | kwIf => "If"
  | kwElse => "Else"
  | kwSwitch => "Switch"
  | kwCase => "Case"
  | kwDefault => "Default"
  | kwWhile => "While"
  | kwBreak => "Break"
  | kwContinue => "Continue"
  | kwFor => "For"
  | kwReturn => "Return"
  | kwFn => "Fn"

end Keyword

/-! ## 2. Symbols -/

inductive Symbol where
  | shlAssign | shrAssign | identical | notIdentical | spaceship
  | equal | notEqual | lessEqual | greaterEqual | shl | shr | andAnd | orOr | plusPlus | minusMinus
  | plusAssign | minusAssign | starAssign | slashAssign | percentAssign | ampAssign | pipeAssign
  | caretAssign
  | plus | minus | star | slash | percent | assign | less | greater | bang | tilde | amp
  | pipe | caret
  | question | colon | semicolon | comma
  | lparen | rparen | lbracket | rbracket | lbrace | rbrace
  deriving DecidableEq, Repr

namespace Symbol

/-- All symbols; one whose spelling begins another's stands after it. -/
def all : List Symbol :=
  [shlAssign, shrAssign, identical, notIdentical, spaceship,
   equal, notEqual, lessEqual, greaterEqual, shl, shr, andAnd, orOr, plusPlus, minusMinus,
   plusAssign, minusAssign, starAssign, slashAssign, percentAssign, ampAssign, pipeAssign,
   caretAssign,
   plus, minus, star, slash, percent, assign, less, greater, bang, tilde, amp, pipe, caret,
   question, colon, semicolon, comma, lparen, rparen, lbracket, rbracket, lbrace, rbrace]

def spelling : Symbol → String
  | shlAssign => "<<="
  | shrAssign => ">>="
  | identical => "==="
  | notIdentical => "!=="
  | spaceship => "<=>"
  | equal => "=="
  | notEqual => "!="
  | lessEqual => "<="
  | greaterEqual => ">="
  | shl => "<<"
  | shr => ">>"
  | andAnd => "&&"
  | orOr => "||"
  | plusPlus => "++"
  | minusMinus => "--"
  | plusAssign => "+="
  | minusAssign => "-="
  | starAssign => "*="
  | slashAssign => "/="
  | percentAssign => "%="
  | ampAssign => "&="
  | pipeAssign => "|="
  | caretAssign => "^="
  | plus => "+"
  | minus => "-"
  | star => "*"
  | slash => "/"
  | percent => "%"
  | assign => "="
  | less => "<"
  | greater => ">"
  | bang => "!"
  | tilde => "~"
  | amp => "&"
  | pipe => "|"
  | caret => "^"
  | question => "?"
  | colon => ":"
  | semicolon => ";"
  | comma => ","
  | lparen => "("
  | rparen => ")"
  | lbracket => "["
  | rbracket => "]"
  | lbrace => "\x7b"
  | rbrace => "\x7d"

def listed : Symbol → String
  | shlAssign => "ShlEq"
  | shrAssign => "ShrEq"
  | identical => "EqEqEq"
  | notIdentical => "BangEqEq"
  | spaceship => "Spaceship"
  | equal => "EqEq"
  | notEqual => "BangEq"
  | lessEqual => "LtEq"
  | greaterEqual => "GtEq"
  | shl => "Shl"
  | shr => "Shr"
  | andAnd => "AmpAmp"
  | orOr => "PipePipe"
  | plusPlus => "PlusPlus"
  | minusMinus => "MinusMinus"
  | plusAssign => "PlusEq"
  | minusAssign => "MinusEq"
  | starAssign => "StarEq"
  | slashAssign => "SlashEq"
  | percentAssign => "PercentEq"
  | ampAssign => "AmpEq"
  | pipeAssign => "PipeEq"
  | caretAssign => "CaretEq"
  | plus => "Plus"
  | minus => "Minus"
  | star => "Star"
  | slash => "Slash"
  | percent => "Percent"
  | assign => "Eq"
  | less => "Lt"
  | greater => "Gt"
  | bang => "Bang"
  | tilde => "Tilde"
  | amp => "Amp"
  | pipe => "Pipe"
  | caret => "Caret"
  | question => "Question"
  | colon => "Colon"
  | semicolon => "Semicolon"
  | comma => "Comma"
  | lparen => "LParen"
  | rparen => "RParen"
  | lbracket => "LBracket"
  | rbracket => "RBracket"
  | lbrace => "LBrace"
  | rbrace => "RBrace"

end Symbol

/-! ## 3. Tokens -/

inductive TokenKind where
  | int (n : Int64)
  | float (x : Float)
  | bool (b : Bool)
  | ident (name : String)
  /-- The opening quote of a string literal. -/
  | strOpen
  /-- A stretch of a string literal's text, with its escapes replaced. -/
  | strText (text : String)
  /-- The brace that opens an embedded expression. -/
  | interpOpen
  /-- The brace that closes an embedded expression. -/
  | interpClose
  /-- The closing quote of a string literal. -/
  | strClose
  | keyword (k : Keyword)
  | symbol (s : Symbol)
  /-- The end of the source. -/
  | eof
  deriving DecidableEq, Repr

namespace TokenKind

/-- The kind of a token in listings, without the value of a literal. -/
def listed : TokenKind → String
  | int _ => "Int"
  | float _ => "Float"
  | bool _ => "Bool"
  | ident _ => "Ident"
  | strOpen => "StrOpen"
  | strText _ => "StrText"
  | interpOpen => "InterpOpen"
  | interpClose => "InterpClose"
  | strClose => "StrClose"
  | keyword k => k.listed
  | symbol s => s.listed
  | eof => "Eof"

/-- The kind of a word: a truth value, a keyword or else an identifier. -/
def ofWord (word : String) : TokenKind :=
  if word = "true" then bool true
  else if word = "false" then bool false
  else match Keyword.all.find? (·.spelling = word) with
    | some k => keyword k
    | none => ident word

end TokenKind

structure Token where
  kind : TokenKind
  lexeme : String
  position : Position
  deriving DecidableEq, Repr

end Scriptlet
