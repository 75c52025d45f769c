/-!
# Positions in source text

Lines and columns count from one; a column is a number of characters, not of bytes.

Lines and columns count from one, as in the `Token` record of §3 of the specification.
-/

namespace Scriptlet

structure Position where
  line : Nat
  column : Nat
  deriving DecidableEq, Repr, Inhabited

namespace Position

def start : Position := ⟨1, 1⟩

def render (p : Position) : String := s!"{p.line}:{p.column}"

/-- The place `n` characters further on in the same line. -/
def right (p : Position) (n : Nat) : Position := ⟨p.line, p.column + n⟩

end Position
end Scriptlet
