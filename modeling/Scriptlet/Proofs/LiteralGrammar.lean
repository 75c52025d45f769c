import Scriptlet.Token

/-!
# The grammar of string literals, as token lists

A literal is an opening quote, its parts and a closing quote; a part is text or an embedded
expression, and an embedded expression is made of the same tokens as code, with further literals in
it.  Scanner and parser meet in this grammar: the one gives tokens that follow it, and the other
never loses its place in such tokens.

The nesting is that of §4.1 of the specification.
-/

namespace Scriptlet

/-! ## 1. The grammar -/

/-- Whether a token is neither part of the frame of a string literal nor the end of the source. -/
def TokenKind.isPlain : TokenKind → Bool
  | .strOpen | .strText _ | .interpOpen | .interpClose | .strClose | .eof => false
  | _ => true

def TokenKind.isText : TokenKind → Bool
  | .strText _ => true
  | _ => false

theorem TokenKind.isText_of_isPlain {kind : TokenKind} (h : kind.isPlain = true) :
    kind.isText = false := by
  cases kind <;> simp_all [isPlain, isText]

def Token.count (kind : TokenKind) (ts : List Token) : Nat := ts.countP (·.kind = kind)

/-- The plain braces close all that they open and `depth` more, and no beginning of the tokens
closes more than that. -/
def Balanced (depth : Nat) (ts : List Token) : Prop :=
  Token.count (.symbol .rbrace) ts = depth + Token.count (.symbol .lbrace) ts ∧
    ∀ pre, pre <+: ts →
      Token.count (.symbol .rbrace) pre ≤ depth + Token.count (.symbol .lbrace) pre

mutual
/-- Tokens of code with whole literals among them; `outer` are those outside the literals. -/
inductive Items : (ts outer : List Token) → Prop where
  | nil : Items [] []
  | plain {t : Token} {ts outer : List Token} :
      t.kind.isPlain = true → Items ts outer → Items (t :: ts) (t :: outer)
  | literal {lit ts outer : List Token} : Literal lit → Items ts outer → Items (lit ++ ts) outer
/-- A string literal, which stands on one line. -/
inductive Literal : List Token → Prop where
  | mk {left right : Token} {parts : List Token} :
      left.kind = .strOpen → Parts parts → right.kind = .strClose →
      (∀ t ∈ parts ++ [right], t.position.line = left.position.line) →
      Literal (left :: (parts ++ [right]))
/-- The parts of a string literal.  Text is never empty, and no text follows text. -/
inductive Parts : List Token → Prop where
  | nil : Parts []
  | text {t : Token} {text : String} {ts : List Token} :
      t.kind = .strText text → text ≠ "" → (∀ u ∈ ts.head?, u.kind.isText = false) → Parts ts →
      Parts (t :: ts)
  | embedded {left right : Token} {inner outer ts : List Token} :
      left.kind = .interpOpen → Items inner outer → Balanced 0 outer →
      right.kind = .interpClose → Parts ts →
      Parts (left :: (inner ++ right :: ts))
end

/-! ## 2. Braces -/

theorem Token.count_cons (kind : TokenKind) (t : Token) (ts : List Token) :
    Token.count kind (t :: ts) = Token.count kind ts + if t.kind = kind then 1 else 0 := by
  simp [Token.count, List.countP_cons]

theorem balanced_nil : Balanced 0 [] := by
  simp [Balanced, Token.count]

/-- A token in front changes the depth by what it opens and closes. -/
theorem Balanced.cons {d d' : Nat} {t : Token} {ts : List Token} (h : Balanced d' ts)
    (hd : (d' + if t.kind = .symbol .rbrace then 1 else 0) =
      d + if t.kind = .symbol .lbrace then 1 else 0) :
    Balanced d (t :: ts) := by
  obtain ⟨htotal, hprefix⟩ := h
  refine ⟨?_, fun pre hpre => ?_⟩
  · rw [Token.count_cons, Token.count_cons]
    omega
  · cases pre with
    | nil => simp [Token.count]
    | cons u pre =>
      obtain ⟨rfl, htail⟩ := List.cons_prefix_cons.1 hpre
      have hle := hprefix pre htail
      rw [Token.count_cons, Token.count_cons]
      omega

end Scriptlet
