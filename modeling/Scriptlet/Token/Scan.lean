import Scriptlet.Error
import Scriptlet.Number.Numeral
import Scriptlet.Text.Lines
import Scriptlet.Token

/-!
# From source text to tokens

The text is read line by line.  A line is read by steps: each step takes one or more characters and
gives at most two tokens.  A string literal ends in its line, so the only thing that one line passes
on to the next is whether a block comment is open.

This is the lexer of §4.1 of the specification; that a string literal ends in its line is one of the
decisions of §10.7.
-/

namespace Scriptlet
namespace Scan

/-! ## 1. Words, numbers and text

Lexemes that may be many characters long.  Words start with a letter or a dollar sign; a number has
no sign and no exponent. -/

def startsWord (c : Char) : Bool := c.isAlpha || c == '$'

def continuesWord (c : Char) : Bool := c.isAlphanum || c == '_'

/-- The characters of a number: digits, and a point with more digits if a digit follows the
point. -/
def numberLexeme (cs : List Char) : List Char :=
  let whole := cs.takeWhile Char.isDigit
  match cs.dropWhile Char.isDigit with
  | '.' :: d :: rest =>
    if d.isDigit then whole ++ '.' :: (d :: rest).takeWhile Char.isDigit else whole
  | _ => whole

/-- The token for a number.  A whole number that does not fit a word is a float. -/
def numberKind (lexeme : List Char) : TokenKind :=
  match Numeral.readInt? lexeme with
  | some n => .int n
  | none => .float ((Numeral.readUnsigned? false lexeme).getD (Binary64.infinity false))

def unescape : Char → Option Char
  | '"' => some '"'
  | '\\' => some '\\'
  | 'n' => some '\n'
  | 't' => some '\t'
  | 'r' => some '\r'
  | '0' => some '\x00'
  | '{' => some '{'
  | '}' => some '}'
  | _ => none

inductive TextEnd where
  | quote
  | brace
  | badEscape (c : Char)
  | endOfLine
  deriving DecidableEq, Repr

/-- A stretch of a string literal: the text it stands for, the number of characters it is written
with, and what follows it. -/
structure TextRun where
  text : List Char
  width : Nat
  stop : TextEnd
  deriving DecidableEq, Repr

def TextRun.cons (c : Char) (width : Nat) (run : TextRun) : TextRun :=
  ⟨c :: run.text, width + run.width, run.stop⟩

/-- The text of a string literal up to its closing quote, the next embedded expression or the
end of the line.  Doubled braces stand for one brace. -/
def textRun : List Char → TextRun
  | [] => ⟨[], 0, .endOfLine⟩
  | '"' :: _ => ⟨[], 0, .quote⟩
  | ['\\'] => ⟨[], 0, .endOfLine⟩
  | '\\' :: e :: rest =>
    match unescape e with
    | some c => (textRun rest).cons c 2
    | none => ⟨[], 0, .badEscape e⟩
  | '{' :: '{' :: rest => (textRun rest).cons '{' 2
  | '}' :: '}' :: rest => (textRun rest).cons '}' 2
  | '{' :: _ => ⟨[], 0, .brace⟩
  | c :: rest => (textRun rest).cons c 1

/-- The number of characters up to and with the end of a block comment. -/
def commentEnd? : List Char → Option Nat
  | [] => none
  | '*' :: '/' :: _ => some 2
  | _ :: rest => (commentEnd? rest).map (· + 1)

/-! ## 2. Steps

A step looks at what surrounds the next character.  In a comment and in the text of a literal it
goes as far as it can in the line, and in code it reads one lexeme. -/

/-- What surrounds the next character, innermost first. -/
inductive Mode where
  /-- The text of a string literal that was opened at this column. -/
  | text (opened : Nat)
  /-- An embedded expression with this many plain braces open. -/
  | interp (depth : Nat)
  deriving DecidableEq, Repr

structure State where
  modes : List Mode
  comment : Bool
  deriving DecidableEq, Repr

/-- The result of a step: its tokens, the state after it and how many characters it took
beside the first one. -/
structure Step where
  tokens : List Token
  state : State
  more : Nat
  deriving DecidableEq, Repr

def token (kind : TokenKind) (lexeme : List Char) (p : Position) : Token :=
  ⟨kind, String.ofList lexeme, p⟩

def textToken (text : List Char) (p : Position) : List Token :=
  if text.isEmpty then [] else [token (.strText (String.ofList text)) text p]

/-- A step in the text of a string literal that was opened at column `opened`. -/
def textStep (p : Position) (opened : Nat) (outer : List Mode) (c : Char) (rest : List Char) :
    Except SyntaxError Step :=
  let run := textRun (c :: rest)
  let after := p.right run.width
  match run.stop with
  | .quote => .ok
    ⟨textToken run.text p ++ [token .strClose ['"'] after], ⟨outer, false⟩, run.width⟩
  | .brace => .ok
    ⟨textToken run.text p ++ [token .interpOpen ['{'] after],
      ⟨.interp 0 :: .text opened :: outer, false⟩, run.width⟩
  | .badEscape e => .error ⟨.unknownEscape e, after⟩
  -- The error is placed at the opening quote and not where the line ends.
  | .endOfLine => .error ⟨.unterminatedString, ⟨p.line, opened⟩⟩

def symbolAt? (cs : List Char) : Option Symbol :=
  Symbol.all.find? fun s => s.spelling.toList.isPrefixOf cs

def codeStep (p : Position) (modes : List Mode) (c : Char) (rest : List Char) :
    Except SyntaxError Step :=
  let one (kind : TokenKind) (modes : List Mode) : Except SyntaxError Step :=
    .ok ⟨[token kind [c] p], ⟨modes, false⟩, 0⟩
  if Text.isBlank c then .ok ⟨[], ⟨modes, false⟩, 0⟩
  else if c = '/' ∧ rest.head? = some '/' then .ok ⟨[], ⟨modes, false⟩, rest.length⟩
  else if c = '/' ∧ rest.head? = some '*' then .ok ⟨[], ⟨modes, true⟩, 1⟩
  else if c = '"' then one .strOpen (.text p.column :: modes)
  else if c.isDigit then
    let lexeme := numberLexeme (c :: rest)
    .ok ⟨[token (numberKind lexeme) lexeme p], ⟨modes, false⟩, lexeme.length - 1⟩
  else if startsWord c then
    let lexeme := c :: rest.takeWhile continuesWord
    .ok ⟨[token (.ofWord (String.ofList lexeme)) lexeme p], ⟨modes, false⟩, lexeme.length - 1⟩
  else if c = '{' then
    match modes with
    | .interp depth :: outer => one (.symbol .lbrace) (.interp (depth + 1) :: outer)
    | _ => one (.symbol .lbrace) modes
  -- A closing brace ends the embedded expression unless it closes a brace of that expression.
  else if c = '}' then
    match modes with
    | .interp 0 :: outer => one .interpClose outer
    | .interp (depth + 1) :: outer => one (.symbol .rbrace) (.interp depth :: outer)
    | _ => one (.symbol .rbrace) modes
  -- In the table a symbol stands behind those that it begins, so the first match is the longest.
  else match symbolAt? (c :: rest) with
    | some s => .ok ⟨[token (.symbol s) s.spelling.toList p], ⟨modes, false⟩, s.spelling.length - 1⟩
    | none => .error ⟨.unexpectedCharacter c, p⟩

/-- One step at the position `p` before the characters `c :: rest`. -/
def step (p : Position) (state : State) (c : Char) (rest : List Char) : Except SyntaxError Step :=
  if state.comment then
    match commentEnd? (c :: rest) with
    | some width => .ok ⟨[], ⟨state.modes, false⟩, width - 1⟩
    | none => .ok ⟨[], state, rest.length⟩
  else match state.modes with
    | .text opened :: outer => textStep p opened outer c rest
    | modes => codeStep p modes c rest

/-! ## 3. Lines

Places are counted as the steps go on.  A line ends well if no literal is open at its end. -/

def openString? (modes : List Mode) : Option Nat :=
  modes.findSome? fun
    | .text opened => some opened
    | .interp _ => none

/-- The tokens of the rest of a line and whether a block comment is open after it. -/
def line (p : Position) (state : State) (cs : List Char) : Except SyntaxError (List Token × Bool) :=
  match cs with
  | [] =>
    match openString? state.modes with
    | some opened => .error ⟨.unterminatedString, ⟨p.line, opened⟩⟩
    | none => .ok ([], state.comment)
  | c :: rest => do
    let s ← step p state c rest
    let (tokens, comment) ← line (p.right (s.more + 1)) s.state (rest.drop s.more)
    return (s.tokens ++ tokens, comment)
termination_by cs.length
decreasing_by simp only [List.length_drop, List.length_cons]; omega

/-- The tokens of a list of lines, the first of which has the number `n`. -/
def linesFrom (n : Nat) (comment : Bool) : List (List Char) → Except SyntaxError (List Token)
  | [] => .ok []
  | cs :: more => do
    let (tokens, comment) ← line ⟨n, 1⟩ ⟨[], comment⟩ cs
    let rest ← linesFrom (n + 1) comment more
    return tokens ++ rest

/-- Where the source ends: after the last character of its last line. -/
def endPosition (lines : List (List Char)) : Position :=
  match lines.getLast? with
  | some last => ⟨lines.length, last.length + 1⟩
  | none => .start

end Scan

/-- The tokens of a source text; the last one marks its end (`Tokenize` of §4.1). -/
def Token.scan (source : String) : Except SyntaxError (List Token) := do
  let lines := Text.lines source.toList
  let tokens ← Scan.linesFrom 1 false lines
  return tokens ++ [⟨.eof, "", Scan.endPosition lines⟩]

end Scriptlet
