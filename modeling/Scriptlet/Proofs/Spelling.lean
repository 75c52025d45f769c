import Scriptlet.Expr.Parse

/-!
# How expressions are written as tokens

`Spells level e ts` says that the tokens `ts` write the expression `e` as an operand whose operators
are all at the level or above.  Parentheses may stand around any subexpression, and have to stand
where an operator would otherwise be below the level that its place asks for.  `Expr.spell` is the
writing with the fewest parentheses.

Only the kinds of tokens matter; positions and lexemes are free.  `Expr.unplaced` forgets positions
in the same way on the side of expressions.

The levels are the precedences of §4.2 of the specification: assignments and the conditional group
to the right, everything else to the left.
-/

namespace Scriptlet

/-! ## 1. Expressions without positions

The equations are stated one by one, since unfolding the definition would also open the lists in it.
-/

mutual
/-- The expression with every position moved to the start of the text. -/
def Expr.unplaced : Expr → Expr
  | .bool b _ => .bool b .start
  | .int n _ => .int n .start
  | .float x _ => .float x .start
  | .str s _ => .str s .start
  | .interpolation parts _ => .interpolation (unplacedParts parts) .start
  | .list items _ => .list (unplacedItems items) .start
  | .var name _ => .var name .start
  | .unary op e _ => .unary op e.unplaced .start
  | .trailing op e _ => .trailing op e.unplaced .start
  | .binary op l r _ => .binary op l.unplaced r.unplaced .start
  | .ternary c t f _ => .ternary c.unplaced t.unplaced f.unplaced .start
  | .call callee args _ => .call callee.unplaced (unplacedArgs args) .start
  | .subscript target index _ => .subscript target.unplaced index.unplaced .start

def Expr.unplacedParts : List Part → List Part
  | [] => []
  | .text t :: parts => .text t :: unplacedParts parts
  | .expr e :: parts => .expr e.unplaced :: unplacedParts parts

def Expr.unplacedItems : List Expr → List Expr
  | [] => []
  | e :: items => e.unplaced :: unplacedItems items

def Expr.unplacedArgs : List Arg → List Arg
  | [] => []
  | .mk name e :: args => .mk name e.unplaced :: unplacedArgs args
end

section Unplaced

variable (p : Position)

theorem Expr.unplaced_interpolation (parts : List Part) :
    (Expr.interpolation parts p).unplaced = .interpolation (unplacedParts parts) .start := rfl

theorem Expr.unplaced_list (items : List Expr) :
    (Expr.list items p).unplaced = .list (unplacedItems items) .start := rfl

theorem Expr.unplaced_unary (op : UnaryOp) (e : Expr) :
    (Expr.unary op e p).unplaced = .unary op e.unplaced .start := rfl

theorem Expr.unplaced_trailing (op : StepOp) (e : Expr) :
    (Expr.trailing op e p).unplaced = .trailing op e.unplaced .start := rfl

theorem Expr.unplaced_binary (op : BinaryOp) (l r : Expr) :
    (Expr.binary op l r p).unplaced = .binary op l.unplaced r.unplaced .start := rfl

theorem Expr.unplaced_ternary (c t f : Expr) :
    (Expr.ternary c t f p).unplaced = .ternary c.unplaced t.unplaced f.unplaced .start := rfl

theorem Expr.unplaced_call (callee : Expr) (args : List Arg) :
    (Expr.call callee args p).unplaced = .call callee.unplaced (unplacedArgs args) .start := rfl

theorem Expr.unplaced_subscript (target index : Expr) :
    (Expr.subscript target index p).unplaced = .subscript target.unplaced index.unplaced .start :=
  rfl

end Unplaced

def Part.isExpr : Part → Bool
  | .text _ => false
  | .expr _ => true

mutual
/-- Whether an expression can be written at all: a literal without an embedded expression is a plain
string, so every interpolation needs one. -/
def Expr.spellable : Expr → Bool
  | .bool _ _ | .int _ _ | .float _ _ | .str _ _ | .var _ _ => true
  | .interpolation parts _ => parts.any Part.isExpr && spellableParts parts
  | .list items _ => spellableItems items
  | .unary _ e _ => e.spellable
  | .trailing _ e _ => e.spellable
  | .binary _ l r _ => l.spellable && r.spellable
  | .ternary c t f _ => c.spellable && t.spellable && f.spellable
  | .call callee args _ => callee.spellable && spellableArgs args
  | .subscript target index _ => target.spellable && index.spellable

def Expr.spellableParts : List Part → Bool
  | [] => true
  | .text _ :: parts => spellableParts parts
  | .expr e :: parts => e.spellable && spellableParts parts

def Expr.spellableItems : List Expr → Bool
  | [] => true
  | e :: items => e.spellable && spellableItems items

def Expr.spellableArgs : List Arg → Bool
  | [] => true
  | .mk _ e :: args => e.spellable && spellableArgs args
end

/-! ## 2. Spellings

Every rule but `group` and those for single tokens asks for the level of its operator. -/

def StepOp.symbol : StepOp → Symbol
  | increment => .plusPlus
  | decrement => .minusMinus

namespace BinaryOp

/-- The level that the left operand needs.  Operators of one level group to the left, except
assignments. -/
def leftLevel (op : BinaryOp) : Nat :=
  if op.level = Level.assignment then Level.assignment + 1 else op.level

def rightLevel (op : BinaryOp) : Nat :=
  if op.level = Level.assignment then Level.assignment else op.level + 1

end BinaryOp

/-- A list of phrases with commas between them. -/
inductive Separated {α : Type} (Writes : α → List Token → Prop) : List α → List Token → Prop where
  | nil : Separated Writes [] []
  | single {a : α} {ts : List Token} : Writes a ts → Separated Writes [a] ts
  | cons {a b : α} {as : List α} {ts us : List Token} {comma : Token} :
      Writes a ts → comma.kind = .symbol .comma → Separated Writes (b :: as) us →
      Separated Writes (a :: b :: as) (ts ++ comma :: us)

inductive Joined {α : Type} (Writes : α → List Token → Prop) : List α → List Token → Prop where
  | nil : Joined Writes [] []
  | cons {a : α} {as : List α} {ts us : List Token} :
      Writes a ts → Joined Writes as us → Joined Writes (a :: as) (ts ++ us)

/-- An argument of a call, whose value is written as `Writes` says. -/
inductive SpellsArg (Writes : Expr → List Token → Prop) : Arg → List Token → Prop where
  | positional {e : Expr} {ts : List Token} : Writes e ts → SpellsArg Writes (.mk none e) ts
  | named {name : String} {e : Expr} {ident colon : Token} {ts : List Token} :
      ident.kind = .ident name → colon.kind = .symbol .colon → Writes e ts →
      SpellsArg Writes (.mk (some name) e) (ident :: colon :: ts)

/-- A part of a literal, whose expression is written as `Writes` says. -/
inductive SpellsPart (Writes : Expr → List Token → Prop) : Part → List Token → Prop where
  | text {text : String} {t : Token} : t.kind = .strText text → SpellsPart Writes (.text text) [t]
  | expr {e : Expr} {left right : Token} {ts : List Token} :
      left.kind = .interpOpen → right.kind = .interpClose → Writes e ts →
      SpellsPart Writes (.expr e) (left :: (ts ++ [right]))

/-- Tokens that write an expression as an operand whose operators are at a level or above. -/
inductive Spells : (level : Nat) → Expr → List Token → Prop where
  | bool {level : Nat} {b : Bool} {pos : Position} {t : Token} :
      t.kind = .bool b → Spells level (.bool b pos) [t]
  | int {level : Nat} {n : Int64} {pos : Position} {t : Token} :
      t.kind = .int n → Spells level (.int n pos) [t]
  | float {level : Nat} {x : Float} {pos : Position} {t : Token} :
      t.kind = .float x → Spells level (.float x pos) [t]
  | var {level : Nat} {name : String} {pos : Position} {t : Token} :
      t.kind = .ident name → Spells level (.var name pos) [t]
  /-- The text of a string may be cut into several tokens. -/
  | str {level : Nat} {texts : List String} {pos : Position} {left right : Token}
      {ts : List Token} :
      left.kind = .strOpen → ts.map (·.kind) = texts.map .strText → right.kind = .strClose →
      Spells level (.str (String.join texts) pos) (left :: (ts ++ [right]))
  | interpolation {level : Nat} {parts : List Part} {pos : Position} {left right : Token}
      {ts : List Token} :
      left.kind = .strOpen → Joined (SpellsPart (Spells Level.lowest)) parts ts →
      parts.any Part.isExpr = true → right.kind = .strClose →
      Spells level (.interpolation parts pos) (left :: (ts ++ [right]))
  | list {level : Nat} {items : List Expr} {pos : Position} {left right : Token} {ts : List Token} :
      left.kind = .symbol .lbracket → Separated (Spells Level.lowest) items ts →
      right.kind = .symbol .rbracket → Spells level (.list items pos) (left :: (ts ++ [right]))
  /-- Parentheses, needed or not. -/
  | group {level : Nat} {e : Expr} {left right : Token} {ts : List Token} :
      left.kind = .symbol .lparen → Spells Level.lowest e ts → right.kind = .symbol .rparen →
      Spells level e (left :: (ts ++ [right]))
  | unary {level : Nat} {op : UnaryOp} {e : Expr} {pos : Position} {t : Token} {ts : List Token} :
      level ≤ Level.unary → t.kind = .symbol op.symbol → Spells Level.unary e ts →
      Spells level (.unary op e pos) (t :: ts)
  | trailing {level : Nat} {op : StepOp} {e : Expr} {pos : Position} {t : Token} {ts : List Token} :
      level ≤ Level.trailing → Spells Level.trailing e ts → t.kind = .symbol op.symbol →
      Spells level (.trailing op e pos) (ts ++ [t])
  | binary {level : Nat} {op : BinaryOp} {l r : Expr} {pos : Position} {t : Token}
      {ts us : List Token} :
      level ≤ op.level → Spells op.leftLevel l ts → t.kind = .symbol op.symbol →
      Spells op.rightLevel r us → Spells level (.binary op l r pos) (ts ++ t :: us)
  | ternary {level : Nat} {c x y : Expr} {pos : Position} {question colon : Token}
      {ts us vs : List Token} :
      level ≤ Level.assignment → Spells (Level.assignment + 1) c ts →
      question.kind = .symbol .question → Spells Level.lowest x us →
      colon.kind = .symbol .colon → Spells Level.assignment y vs →
      Spells level (.ternary c x y pos) (ts ++ question :: (us ++ colon :: vs))
  | call {level : Nat} {callee : Expr} {args : List Arg} {pos : Position} {left right : Token}
      {ts us : List Token} :
      level ≤ Level.trailing → Spells Level.trailing callee ts → left.kind = .symbol .lparen →
      Separated (SpellsArg (Spells Level.lowest)) args us → right.kind = .symbol .rparen →
      Spells level (.call callee args pos) (ts ++ left :: (us ++ [right]))
  | subscript {level : Nat} {target index : Expr} {pos : Position} {left right : Token}
      {ts us : List Token} :
      level ≤ Level.trailing → Spells Level.trailing target ts → left.kind = .symbol .lbracket →
      Spells Level.lowest index us → right.kind = .symbol .rbracket →
      Spells level (.subscript target index pos) (ts ++ left :: (us ++ [right]))

/-! ## 3. The spelling with the fewest parentheses

Parentheses are put exactly where an operator binds less tightly than the place allows. -/

def Token.ofKind (kind : TokenKind) : Token := ⟨kind, "", .start⟩

def grouped (needed : Bool) (ts : List Token) : List Token :=
  if needed then .ofKind (.symbol .lparen) :: (ts ++ [.ofKind (.symbol .rparen)]) else ts

mutual
/-- Writes an expression where operators of a level are wanted. -/
def Expr.spell (level : Nat) : Expr → List Token
  | .bool b _ => [.ofKind (.bool b)]
  | .int n _ => [.ofKind (.int n)]
  | .float x _ => [.ofKind (.float x)]
  | .var name _ => [.ofKind (.ident name)]
  | .str s _ => [.ofKind .strOpen, .ofKind (.strText s), .ofKind .strClose]
  | .interpolation parts _ => .ofKind .strOpen :: (spellParts parts ++ [.ofKind .strClose])
  | .list items _ =>
    .ofKind (.symbol .lbracket) :: (spellItems items ++ [.ofKind (.symbol .rbracket)])
  | .unary op e _ =>
    grouped (Level.unary < level) (.ofKind (.symbol op.symbol) :: e.spell Level.unary)
  | .trailing op e _ =>
    grouped (Level.trailing < level) (e.spell Level.trailing ++ [.ofKind (.symbol op.symbol)])
  | .binary op l r _ =>
    grouped (op.level < level)
      (l.spell op.leftLevel ++ .ofKind (.symbol op.symbol) :: r.spell op.rightLevel)
  | .ternary c x y _ =>
    grouped (Level.assignment < level)
      (c.spell (Level.assignment + 1) ++ .ofKind (.symbol .question) ::
        (x.spell Level.lowest ++ .ofKind (.symbol .colon) :: y.spell Level.assignment))
  | .call callee args _ =>
    grouped (Level.trailing < level)
      (callee.spell Level.trailing ++ .ofKind (.symbol .lparen) ::
        (spellArgs args ++ [.ofKind (.symbol .rparen)]))
  | .subscript target index _ =>
    grouped (Level.trailing < level)
      (target.spell Level.trailing ++ .ofKind (.symbol .lbracket) ::
        (index.spell Level.lowest ++ [.ofKind (.symbol .rbracket)]))

def Expr.spellParts : List Part → List Token
  | [] => []
  | .text t :: parts => [.ofKind (.strText t)] ++ spellParts parts
  | .expr e :: parts =>
    .ofKind .interpOpen :: (e.spell Level.lowest ++ [.ofKind .interpClose]) ++ spellParts parts

def Expr.spellItems : List Expr → List Token
  | [] => []
  | [e] => e.spell Level.lowest
  | e :: items => e.spell Level.lowest ++ .ofKind (.symbol .comma) :: spellItems items

def Expr.spellArg : Arg → List Token
  | .mk none e => e.spell Level.lowest
  | .mk (some name) e => .ofKind (.ident name) :: .ofKind (.symbol .colon) :: e.spell Level.lowest

def Expr.spellArgs : List Arg → List Token
  | [] => []
  | [arg] => spellArg arg
  | arg :: args => spellArg arg ++ .ofKind (.symbol .comma) :: spellArgs args
end

/-- A phrase that can stand at every level up to its own can stand anywhere with the parentheses
that it needs. -/
theorem Spells.grouped {own level : Nat} {e : Expr} {ts : List Token}
    (h : ∀ p, p ≤ own → Spells p e ts) : Spells level e (grouped (own < level) ts) := by
  by_cases hlevel : own < level
  · simp only [Scriptlet.grouped, hlevel, decide_true, if_true]
    exact .group rfl (h Level.lowest (Nat.zero_le own)) rfl
  · simp only [Scriptlet.grouped, hlevel, decide_false]
    exact h level (Nat.le_of_not_lt hlevel)

theorem Expr.spellsArg_spellArg :
    ∀ (name : Option String) {e : Expr}, Spells Level.lowest e (e.spell Level.lowest) →
      SpellsArg (Spells Level.lowest) (.mk name e) (spellArg (.mk name e))
  | none, _, h => .positional h
  | some _, _, h => .named rfl rfl h

mutual
/-- Every expression that can be written at all is written by `spell`. -/
theorem Expr.spells_spell (level : Nat) :
    ∀ e : Expr, e.spellable = true → Spells level e (e.spell level)
  | .bool _ _, _ => .bool rfl
  | .int _ _, _ => .int rfl
  | .float _ _, _ => .float rfl
  | .var _ _, _ => .var rfl
  -- `spell` writes the text as one token.
  | .str s pos, _ => by
    have h : Spells level (.str (String.join [s]) pos)
        (.ofKind .strOpen :: ([.ofKind (.strText s)] ++ [.ofKind .strClose])) := .str rfl rfl rfl
    simpa [String.join, spell] using h
  | .interpolation parts _, h => by
    simp only [spellable, Bool.and_eq_true] at h
    exact .interpolation rfl (joined_spellParts parts h.2) h.1 rfl
  | .list items _, h => .list rfl (separated_spellItems items h) rfl
  | .unary op e _, h => Spells.grouped fun _ hp => .unary hp rfl (e.spells_spell Level.unary h)
  | .trailing op e _, h =>
    Spells.grouped fun _ hp => .trailing hp (e.spells_spell Level.trailing h) rfl
  | .binary op l r _, h => by
    simp only [spellable, Bool.and_eq_true] at h
    exact Spells.grouped fun _ hp =>
      .binary hp (l.spells_spell op.leftLevel h.1) rfl (r.spells_spell op.rightLevel h.2)
  | .ternary c x y _, h => by
    simp only [spellable, Bool.and_eq_true] at h
    exact Spells.grouped fun _ hp =>
      .ternary hp (c.spells_spell _ h.1.1) rfl (x.spells_spell _ h.1.2) rfl (y.spells_spell _ h.2)
  | .call callee args _, h => by
    simp only [spellable, Bool.and_eq_true] at h
    exact Spells.grouped fun _ hp =>
      .call hp (callee.spells_spell _ h.1) rfl (separated_spellArgs args h.2) rfl
  | .subscript target index _, h => by
    simp only [spellable, Bool.and_eq_true] at h
    exact Spells.grouped fun _ hp =>
      .subscript hp (target.spells_spell _ h.1) rfl (index.spells_spell _ h.2) rfl

theorem Expr.joined_spellParts : ∀ parts : List Part, spellableParts parts = true →
    Joined (SpellsPart (Spells Level.lowest)) parts (spellParts parts)
  | [], _ => .nil
  | .text _ :: parts, h => .cons (.text rfl) (joined_spellParts parts h)
  | .expr e :: parts, h => by
    simp only [spellableParts, Bool.and_eq_true] at h
    exact .cons (.expr rfl rfl (e.spells_spell _ h.1)) (joined_spellParts parts h.2)

theorem Expr.separated_spellItems : ∀ items : List Expr, spellableItems items = true →
    Separated (Spells Level.lowest) items (spellItems items)
  | [], _ => .nil
  | [e], h => by
    simp only [spellableItems, Bool.and_true] at h
    exact .single (e.spells_spell _ h)
  | e :: e' :: items, h => by
    rw [spellableItems, Bool.and_eq_true] at h
    exact .cons (e.spells_spell _ h.1) rfl (separated_spellItems (e' :: items) h.2)

theorem Expr.separated_spellArgs : ∀ args : List Arg, spellableArgs args = true →
    Separated (SpellsArg (Spells Level.lowest)) args (spellArgs args)
  | [], _ => .nil
  | [.mk name e], h => by
    simp only [spellableArgs, Bool.and_true] at h
    exact .single (spellsArg_spellArg name (e.spells_spell _ h))
  | .mk name e :: arg :: args, h => by
    rw [spellableArgs, Bool.and_eq_true] at h
    exact .cons (spellsArg_spellArg name (e.spells_spell _ h.1)) rfl
      (separated_spellArgs (arg :: args) h.2)
end

end Scriptlet
