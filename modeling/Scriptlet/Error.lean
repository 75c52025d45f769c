import Scriptlet.Position

/-!
# What can go wrong, and how it is reported

Faults are causes; a `SyntaxError` or a `RuntimeError` places one in the source, and a `RunError` is
either.  The wording of every report is in this file.

The two kinds of errors are those of §7 of the specification, and the codes are those of the table
in §10.2.
-/

namespace Scriptlet

/-! ## 1. Faults of the source text

Faults that the scanner finds come first; the others are found by the parser. -/

inductive Wanted where
  | statement
  | expression
  | sectionLabel
  | endOfString
  | identifier
  /-- A fixed token, by its spelling. -/
  | spelled (text : String)
  deriving DecidableEq, Repr

def Wanted.describe : Wanted → String
  | statement => "statement"
  | expression => "expression"
  | sectionLabel => "`case` or `default`"
  | endOfString => "end of string"
  | identifier => "identifier"
  | spelled text => s!"`{text}`"

inductive Found where
  | endOfInput
  | lexeme (text : String)
  deriving DecidableEq, Repr

def Found.describe : Found → String
  | endOfInput => "end of input"
  | lexeme text => s!"`{text}`"

/-- Causes for which a source text is refused. -/
inductive SyntaxFault where
  | unexpectedCharacter (c : Char)
  | unterminatedString
  | unknownEscape (c : Char)
  /-- No phrase of the wanted kind starts here. -/
  | unexpected (wanted : Wanted) (found : Found)
  /-- The token that has to follow is not there. -/
  | missing (wanted : Wanted) (found : Found)
  | missingBody (function : String)
  | missingDefault (parameter : String)
  deriving DecidableEq, Repr

def SyntaxFault.code : SyntaxFault → String
  | unexpectedCharacter _ => "L001"
  | unterminatedString => "L002"
  | unknownEscape _ => "L003"
  | unexpected _ _ => "P001"
  | missing _ _ => "P002"
  | missingBody _ => "P003"
  | missingDefault _ => "P004"

def SyntaxFault.describe : SyntaxFault → String
  | unexpectedCharacter c => s!"unexpected character `{c}`"
  | unterminatedString => "unterminated string literal"
  | unknownEscape c => s!"unknown escape sequence `\\{c}`"
  | unexpected wanted found => s!"expected {wanted.describe}, found {found.describe}"
  | missing wanted found => s!"expected {wanted.describe}, found {found.describe}"
  | missingBody function => s!"missing body for function `{function}`"
  | missingDefault parameter => s!"missing default value for parameter `{parameter}`"

structure SyntaxError where
  fault : SyntaxFault
  position : Position
  deriving DecidableEq, Repr

def SyntaxError.code (e : SyntaxError) : String := e.fault.code

def SyntaxError.message (e : SyntaxError) : String :=
  s!"[{e.code}] {e.position.render}: {e.fault.describe}"

/-! ## 2. Faults of a running program

A fault has no place of its own.  The innermost expression that knows its line places it. -/

inductive Fault where
  /-- A call of something that is no function; the name is known for a variable. -/
  | notCallable (name : Option String)
  | notAssignable (type : String)
  | invalidIndex (text : String)
  | notIndexable (type : String)
  | pastGrowthLimit (index : Nat) (limit : Nat)
  /-- A failure reported by a native function in its own words. -/
  | native (message : String)
  | chainTooDeep (limit : Nat)
  deriving DecidableEq, Repr

def Fault.code : Fault → String
  | notCallable _ => "R001"
  | notAssignable _ => "R002"
  | invalidIndex _ => "R003"
  | notIndexable _ => "R003"
  | pastGrowthLimit _ _ => "R003"
  | native _ => "R004"
  | chainTooDeep _ => "R005"

def Fault.describe : Fault → String
  | notCallable (some name) => s!"`{name}` is not a function"
  | notCallable none => "expression is not a function"
  | notAssignable type => s!"cannot assign to a {type} value"
  | invalidIndex text => s!"invalid index `{text}`"
  | notIndexable type => s!"cannot index into a {type} value"
  | pastGrowthLimit index limit => s!"index {index} is past the {limit} element limit"
  | native message => message
  | chainTooDeep limit => s!"reference chain deeper than {limit}"

/-- A failed evaluation.  Line zero means that no line is known yet. -/
structure RuntimeError where
  fault : Fault
  line : Nat
  deriving DecidableEq, Repr

namespace RuntimeError

def unplaced (fault : Fault) : RuntimeError := ⟨fault, 0⟩

/-- Places an error at a line, unless it has one. -/
def place (line : Nat) (e : RuntimeError) : RuntimeError :=
  if e.line = 0 then ⟨e.fault, line⟩ else e

def code (e : RuntimeError) : String := e.fault.code

def message (e : RuntimeError) : String :=
  s!"[{e.code}] line {e.line}: {e.fault.describe}"

end RuntimeError

/-! ## 3. Faults of a run

A run fails with one error, before it has begun or while it goes on. -/

inductive RunError where
  | ofSyntax (error : SyntaxError)
  | ofRuntime (error : RuntimeError)
  deriving DecidableEq, Repr

namespace RunError

def code : RunError → String
  | ofSyntax e => e.code
  | ofRuntime e => e.code

def line : RunError → Nat
  | ofSyntax e => e.position.line
  | ofRuntime e => e.line

def message : RunError → String
  | ofSyntax e => s!"syntax error {e.message}"
  | ofRuntime e => s!"runtime error {e.message}"

end RunError
end Scriptlet
