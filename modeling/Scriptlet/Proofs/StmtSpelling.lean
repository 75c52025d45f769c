import Scriptlet.Proofs.Spelling
import Scriptlet.Stmt

/-!
# How statements are written as tokens

`SpellsStmt s ts` says that the tokens `ts` write the statement `s`, with the expressions in it
written as `Spells` says.  A simple statement ends in a semicolon, the sections of a `switch` stand
in braces, and a section without statements is written with a semicolon in their place.
`Stmt.spell` is one such writing.

There is one writing that has to be ruled out: an `else` belongs to the innermost `if` that can take
it, so a statement in front of an `else` must not end in an `if` that has none (`Stmt.endsOpen`).

Statements are those of §4.2 of the specification, which leaves the semicolon optional; spellings
have it always, and what happens without it is in `SemicolonBoundary`.
-/

namespace Scriptlet

/-! ## 1. Statements without positions

A tree is read back up to the places of its tokens, which a spelling does not fix. -/

def Label.unplaced : Label → Label
  | .case e => .case e.unplaced
  | .default => .default

def Param.unplaced (p : Param) : Param := ⟨p.name, p.default.map Expr.unplaced, .start⟩

mutual
def Stmt.unplaced : Stmt → Stmt
  | .block body _ => .block (unplacedMany body) .start
  | .ifElse c x none _ => .ifElse c.unplaced x.unplaced none .start
  | .ifElse c x (some y) _ => .ifElse c.unplaced x.unplaced (some y.unplaced) .start
  | .switch e sections _ => .switch e.unplaced (unplacedSections sections) .start
  | .whileLoop c body _ => .whileLoop c.unplaced body.unplaced .start
  | .forLoop init c step body _ =>
    .forLoop (init.map Expr.unplaced) (c.map Expr.unplaced) (step.map Expr.unplaced)
      body.unplaced .start
  | .breakLoop _ => .breakLoop .start
  | .continueLoop _ => .continueLoop .start
  | .returnValue e _ => .returnValue (e.map Expr.unplaced) .start
  | .expr e => .expr e.unplaced
  | .declare (.mk name params body _) =>
    .declare (.mk name (params.map Param.unplaced) (unplacedMany body) .start)

def Stmt.unplacedMany : List Stmt → List Stmt
  | [] => []
  | s :: body => s.unplaced :: unplacedMany body

def Stmt.unplacedSections : List Section → List Section
  | [] => []
  | .mk labels body :: sections =>
    .mk (labels.map Label.unplaced) (unplacedMany body) :: unplacedSections sections
end

/-! ## 2. Statements that can be written -/

/-- Whether a statement ends in an `if` without an `else`, which would take an `else` that
follows. -/
def Stmt.endsOpen : Stmt → Bool
  | .ifElse _ _ none _ => true
  | .ifElse _ _ (some y) _ => y.endsOpen
  | .whileLoop _ body _ => body.endsOpen
  | .forLoop _ _ _ body _ => body.endsOpen
  | _ => false

def Label.spellable : Label → Bool
  | .case e => e.spellable
  | .default => true

def Param.spellable (p : Param) : Bool := p.default.all Expr.spellable

mutual
/-- Whether a statement can be written at all: its expressions can, every section has a label, and
no `else` would be taken by another `if` than its own. -/
def Stmt.spellable : Stmt → Bool
  | .block body _ => spellableMany body
  | .ifElse c x none _ => c.spellable && x.spellable
  | .ifElse c x (some y) _ => c.spellable && x.spellable && !x.endsOpen && y.spellable
  | .switch e sections _ => e.spellable && spellableSections sections
  | .whileLoop c body _ => c.spellable && body.spellable
  | .forLoop init c step body _ =>
    init.all Expr.spellable && c.all Expr.spellable && step.all Expr.spellable && body.spellable
  | .breakLoop _ | .continueLoop _ => true
  | .returnValue e _ => e.all Expr.spellable
  | .expr e => e.spellable
  | .declare (.mk _ params body _) => params.all Param.spellable && spellableMany body

def Stmt.spellableMany : List Stmt → Bool
  | [] => true
  | s :: body => s.spellable && spellableMany body

def Stmt.spellableSections : List Section → Bool
  | [] => true
  | .mk labels body :: sections =>
    !labels.isEmpty && labels.all Label.spellable && spellableMany body &&
      spellableSections sections
end

/-! ## 3. Spellings

Parts that hold statements take the spelling of statements as a parameter, so that `SpellsStmt` is
one inductive predicate and not several mutual ones. -/

/-- A phrase that may be left out. -/
inductive Optional {α : Type} (Writes : α → List Token → Prop) : Option α → List Token → Prop where
  | absent : Optional Writes none []
  | present {a : α} {ts : List Token} : Writes a ts → Optional Writes (some a) ts

inductive SpellsCondition : Expr → List Token → Prop where
  | mk {e : Expr} {left right : Token} {ts : List Token} :
      left.kind = .symbol .lparen → Spells Level.lowest e ts → right.kind = .symbol .rparen →
      SpellsCondition e (left :: (ts ++ [right]))

inductive SpellsLabel : Label → List Token → Prop where
  | case {e : Expr} {t colon : Token} {ts : List Token} :
      t.kind = .keyword .kwCase → Spells Level.lowest e ts → colon.kind = .symbol .colon →
      SpellsLabel (.case e) (t :: (ts ++ [colon]))
  | default {t colon : Token} :
      t.kind = .keyword .kwDefault → colon.kind = .symbol .colon → SpellsLabel .default [t, colon]

inductive SpellsParam : Param → List Token → Prop where
  | required {name : String} {pos : Position} {t : Token} :
      t.kind = .ident name → SpellsParam ⟨name, none, pos⟩ [t]
  | optional {name : String} {e : Expr} {pos : Position} {t assign : Token} {ts : List Token} :
      t.kind = .ident name → assign.kind = .symbol .assign → Spells Level.assignment e ts →
      SpellsParam ⟨name, some e, pos⟩ (t :: assign :: ts)

/-- The statement in the body of another one; an empty block may be written as a lone semicolon. -/
inductive SpellsBody (Writes : Stmt → List Token → Prop) : Stmt → List Token → Prop where
  | stmt {s : Stmt} {ts : List Token} : Writes s ts → SpellsBody Writes s ts
  | empty {pos : Position} {semicolon : Token} :
      semicolon.kind = .symbol .semicolon → SpellsBody Writes (.block [] pos) [semicolon]

inductive SpellsSection (Writes : Stmt → List Token → Prop) : Section → List Token → Prop where
  | empty {labels : List Label} {semicolon : Token} {ts : List Token} :
      labels ≠ [] → Joined SpellsLabel labels ts → semicolon.kind = .symbol .semicolon →
      SpellsSection Writes (.mk labels []) (ts ++ [semicolon])
  | body {labels : List Label} {s : Stmt} {body : List Stmt} {ts us : List Token} :
      labels ≠ [] → Joined SpellsLabel labels ts → Joined Writes (s :: body) us →
      SpellsSection Writes (.mk labels (s :: body)) (ts ++ us)

inductive SpellsStmt : Stmt → List Token → Prop where
  | block {body : List Stmt} {pos : Position} {left right : Token} {ts : List Token} :
      left.kind = .symbol .lbrace → Joined SpellsStmt body ts → right.kind = .symbol .rbrace →
      SpellsStmt (.block body pos) (left :: (ts ++ [right]))
  | ifThen {c : Expr} {x : Stmt} {pos : Position} {t : Token} {ts us : List Token} :
      t.kind = .keyword .kwIf → SpellsCondition c ts → SpellsBody SpellsStmt x us →
      SpellsStmt (.ifElse c x none pos) (t :: (ts ++ us))
  | ifElse {c : Expr} {x y : Stmt} {pos : Position} {t other : Token} {ts us vs : List Token} :
      t.kind = .keyword .kwIf → SpellsCondition c ts → SpellsBody SpellsStmt x us →
      x.endsOpen = false → other.kind = .keyword .kwElse → SpellsBody SpellsStmt y vs →
      SpellsStmt (.ifElse c x (some y) pos) (t :: (ts ++ (us ++ other :: vs)))
  | switch {e : Expr} {sections : List Section} {pos : Position} {t left right : Token}
      {ts us : List Token} :
      t.kind = .keyword .kwSwitch → SpellsCondition e ts → left.kind = .symbol .lbrace →
      Joined (SpellsSection SpellsStmt) sections us → right.kind = .symbol .rbrace →
      SpellsStmt (.switch e sections pos) (t :: (ts ++ left :: (us ++ [right])))
  | whileLoop {c : Expr} {body : Stmt} {pos : Position} {t : Token} {ts us : List Token} :
      t.kind = .keyword .kwWhile → SpellsCondition c ts → SpellsBody SpellsStmt body us →
      SpellsStmt (.whileLoop c body pos) (t :: (ts ++ us))
  | forLoop {init c step : Option Expr} {body : Stmt} {pos : Position}
      {t left first second right : Token} {ts us vs ws : List Token} :
      t.kind = .keyword .kwFor → left.kind = .symbol .lparen →
      Optional (Spells Level.lowest) init ts → first.kind = .symbol .semicolon →
      Optional (Spells Level.lowest) c us → second.kind = .symbol .semicolon →
      Optional (Spells Level.lowest) step vs →
      right.kind = .symbol .rparen → SpellsBody SpellsStmt body ws →
      SpellsStmt (.forLoop init c step body pos)
        (t :: left :: (ts ++ first :: (us ++ second :: (vs ++ right :: ws))))
  | breakLoop {pos : Position} {t semicolon : Token} :
      t.kind = .keyword .kwBreak → semicolon.kind = .symbol .semicolon →
      SpellsStmt (.breakLoop pos) [t, semicolon]
  | continueLoop {pos : Position} {t semicolon : Token} :
      t.kind = .keyword .kwContinue → semicolon.kind = .symbol .semicolon →
      SpellsStmt (.continueLoop pos) [t, semicolon]
  | returnValue {e : Option Expr} {pos : Position} {t semicolon : Token} {ts : List Token} :
      t.kind = .keyword .kwReturn → Optional (Spells Level.lowest) e ts →
      semicolon.kind = .symbol .semicolon →
      SpellsStmt (.returnValue e pos) (t :: (ts ++ [semicolon]))
  | expr {e : Expr} {semicolon : Token} {ts : List Token} :
      Spells Level.lowest e ts → semicolon.kind = .symbol .semicolon →
      SpellsStmt (.expr e) (ts ++ [semicolon])
  | declare {name : String} {params : List Param} {body : List Stmt} {pos : Position}
      {t ident left right opening closing : Token} {ts us : List Token} :
      t.kind = .keyword .kwFn → ident.kind = .ident name → left.kind = .symbol .lparen →
      Separated SpellsParam params ts → right.kind = .symbol .rparen →
      opening.kind = .symbol .lbrace → Joined SpellsStmt body us →
      closing.kind = .symbol .rbrace →
      SpellsStmt (.declare (.mk name params body pos))
        (t :: ident :: left :: (ts ++ right :: (opening :: (us ++ [closing]))))

/-! ## 4. The plain spelling

The spelling that `Stmt.spell` computes has no lone semicolons for bodies, and no parentheses beyond
those that `Expr.spell` puts. -/

namespace Stmt

def symbol (s : Symbol) : Token := .ofKind (.symbol s)

def keyword (k : Keyword) : Token := .ofKind (.keyword k)

def spellCondition (e : Expr) : List Token :=
  symbol .lparen :: (e.spell Level.lowest ++ [symbol .rparen])

def spellOptional : Option Expr → List Token
  | none => []
  | some e => e.spell Level.lowest

def spellLabel : Label → List Token
  | .case e => keyword .kwCase :: (e.spell Level.lowest ++ [symbol .colon])
  | .default => [keyword .kwDefault, symbol .colon]

def spellParam : Param → List Token
  | ⟨name, none, _⟩ => [.ofKind (.ident name)]
  | ⟨name, some e, _⟩ => .ofKind (.ident name) :: symbol .assign :: e.spell Level.assignment

def spellParams : List Param → List Token
  | [] => []
  | [p] => spellParam p
  | p :: params => spellParam p ++ symbol .comma :: spellParams params

mutual
def spell : Stmt → List Token
  | .block body _ => symbol .lbrace :: (spellMany body ++ [symbol .rbrace])
  | .ifElse c x none _ => keyword .kwIf :: (spellCondition c ++ x.spell)
  | .ifElse c x (some y) _ =>
    keyword .kwIf :: (spellCondition c ++ (x.spell ++ keyword .kwElse :: y.spell))
  | .switch e sections _ =>
    keyword .kwSwitch :: (spellCondition e ++ symbol .lbrace ::
      (spellSections sections ++ [symbol .rbrace]))
  | .whileLoop c body _ => keyword .kwWhile :: (spellCondition c ++ body.spell)
  | .forLoop init c step body _ =>
    keyword .kwFor :: symbol .lparen :: (spellOptional init ++ symbol .semicolon ::
      (spellOptional c ++ symbol .semicolon ::
        (spellOptional step ++ symbol .rparen :: body.spell)))
  | .breakLoop _ => [keyword .kwBreak, symbol .semicolon]
  | .continueLoop _ => [keyword .kwContinue, symbol .semicolon]
  | .returnValue e _ => keyword .kwReturn :: (spellOptional e ++ [symbol .semicolon])
  | .expr e => e.spell Level.lowest ++ [symbol .semicolon]
  | .declare (.mk name params body _) =>
    keyword .kwFn :: .ofKind (.ident name) :: symbol .lparen :: (spellParams params ++
      symbol .rparen :: (symbol .lbrace :: (spellMany body ++ [symbol .rbrace])))

def spellMany : List Stmt → List Token
  | [] => []
  | s :: body => s.spell ++ spellMany body

def spellSections : List Section → List Token
  | [] => []
  | .mk labels [] :: sections =>
    (labels.flatMap spellLabel ++ [symbol .semicolon]) ++ spellSections sections
  | .mk labels (s :: body) :: sections =>
    (labels.flatMap spellLabel ++ (s.spell ++ spellMany body)) ++ spellSections sections
end

theorem optional_spellOptional : ∀ e : Option Expr, e.all Expr.spellable = true →
    Optional (Spells Level.lowest) e (spellOptional e)
  | none, _ => .absent
  | some e, h => .present (e.spells_spell Level.lowest h)

theorem spellsCondition_spellCondition {e : Expr} (h : e.spellable = true) :
    SpellsCondition e (spellCondition e) :=
  .mk rfl (e.spells_spell Level.lowest h) rfl

theorem spellsLabel_spellLabel : ∀ l : Label, l.spellable = true → SpellsLabel l (spellLabel l)
  | .case e, h => .case rfl (e.spells_spell Level.lowest h) rfl
  | .default, _ => .default rfl rfl

theorem joined_spellLabels {labels : List Label} (h : labels.all Label.spellable = true) :
    Joined SpellsLabel labels (labels.flatMap spellLabel) := by
  induction labels with
  | nil => exact .nil
  | cons l labels ih =>
    rw [List.all_cons, Bool.and_eq_true] at h
    exact .cons (spellsLabel_spellLabel l h.1) (ih h.2)

theorem spellsParam_spellParam : ∀ p : Param, p.spellable = true → SpellsParam p (spellParam p)
  | ⟨_, none, _⟩, _ => .required rfl
  | ⟨_, some e, _⟩, h => .optional rfl rfl (e.spells_spell Level.assignment h)

theorem separated_spellParams : ∀ params : List Param, params.all Param.spellable = true →
    Separated SpellsParam params (spellParams params)
  | [], _ => .nil
  | [p], h => by
    simp only [List.all_cons, List.all_nil, Bool.and_true] at h
    exact .single (spellsParam_spellParam p h)
  | p :: q :: params, h => by
    rw [List.all_cons, Bool.and_eq_true] at h
    exact .cons (spellsParam_spellParam p h.1) rfl (separated_spellParams (q :: params) h.2)

mutual
/-- Every statement that can be written at all is written by `spell`. -/
theorem spells_spell : ∀ s : Stmt, s.spellable = true → SpellsStmt s s.spell
  | .block body _, h => .block rfl (joined_spellMany body h) rfl
  | .ifElse c x none _, h => by
    rw [spellable, Bool.and_eq_true] at h
    exact .ifThen rfl (spellsCondition_spellCondition h.1) (.stmt (x.spells_spell h.2))
  | .ifElse c x (some y) _, h => by
    simp only [spellable, Bool.and_eq_true, Bool.not_eq_true'] at h
    obtain ⟨⟨⟨hc, hx⟩, hopen⟩, hy⟩ := h
    exact .ifElse rfl (spellsCondition_spellCondition hc) (.stmt (x.spells_spell hx)) hopen rfl
      (.stmt (y.spells_spell hy))
  | .switch e sections _, h => by
    rw [spellable, Bool.and_eq_true] at h
    exact .switch rfl (spellsCondition_spellCondition h.1) rfl
      (joined_spellSections sections h.2) rfl
  | .whileLoop c body _, h => by
    rw [spellable, Bool.and_eq_true] at h
    exact .whileLoop rfl (spellsCondition_spellCondition h.1) (.stmt (body.spells_spell h.2))
  | .forLoop init c step body _, h => by
    simp only [spellable, Bool.and_eq_true] at h
    obtain ⟨⟨⟨hinit, hc⟩, hstep⟩, hbody⟩ := h
    exact .forLoop rfl rfl (optional_spellOptional init hinit) rfl (optional_spellOptional c hc) rfl
      (optional_spellOptional step hstep) rfl (.stmt (body.spells_spell hbody))
  | .breakLoop _, _ => .breakLoop rfl rfl
  | .continueLoop _, _ => .continueLoop rfl rfl
  | .returnValue e _, h => .returnValue rfl (optional_spellOptional e h) rfl
  | .expr e, h => .expr (e.spells_spell Level.lowest h) rfl
  | .declare (.mk name params body _), h => by
    rw [spellable, Bool.and_eq_true] at h
    exact .declare rfl rfl rfl (separated_spellParams params h.1) rfl rfl
      (joined_spellMany body h.2) rfl

theorem joined_spellMany :
    ∀ body : List Stmt, spellableMany body = true → Joined SpellsStmt body (spellMany body)
  | [], _ => .nil
  | s :: body, h => by
    rw [spellableMany, Bool.and_eq_true] at h
    exact .cons (s.spells_spell h.1) (joined_spellMany body h.2)

theorem joined_spellSections : ∀ sections : List Section, spellableSections sections = true →
    Joined (SpellsSection SpellsStmt) sections (spellSections sections)
  | [], _ => .nil
  | .mk labels [] :: sections, h => by
    simp only [spellableSections, Bool.and_eq_true, Bool.not_eq_true',
      List.isEmpty_eq_false_iff] at h
    obtain ⟨⟨⟨hne, hlabels⟩, -⟩, hsections⟩ := h
    exact .cons (.empty hne (joined_spellLabels hlabels) rfl)
      (joined_spellSections sections hsections)
  | .mk labels (s :: body) :: sections, h => by
    simp only [spellableSections, spellableMany, Bool.and_eq_true, Bool.not_eq_true',
      List.isEmpty_eq_false_iff] at h
    obtain ⟨⟨⟨hne, hlabels⟩, hs, hbody⟩, hsections⟩ := h
    exact .cons (.body hne (joined_spellLabels hlabels)
      (.cons (s.spells_spell hs) (joined_spellMany body hbody)))
      (joined_spellSections sections hsections)
end

end Stmt
end Scriptlet
