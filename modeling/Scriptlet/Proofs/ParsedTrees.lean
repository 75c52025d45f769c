import Scriptlet.Proofs.ParserDiscipline

/-!
# What holds of every tree that is read

A tree is built from the bottom up while a cursor moves on, so a property of trees holds of all that
a parser returns if it passes from the parts of a tree to the tree.  `TreeRules` lists what has to
be shown for that, one rule for each form of expressions and statements.  The property of a
statement may also speak about the cursor behind it; this is how a rule learns which token was next
when an `if` was left without an `else`.  The parsers are gone through once, in `exprGrown` and
`stmtGrown`.

The rules follow the grammar of §4.2 of the specification.
-/

namespace Scriptlet
open Scriptlet.Parser

/-! ## 1. Rules

A property of trees that each form has if its parts have it. -/

/-- Properties of trees that pass from parts to wholes. -/
structure TreeRules where
  /-- Where cursors stand. -/
  At : Cursor → Prop
  /-- The positions of tokens that are met. -/
  Place : Position → Prop
  OfExpr : Expr → Prop
  /-- The property of a statement with the cursor behind it. -/
  OfStmt : Stmt → Cursor → Prop
  advance {c : Cursor} : At c → At c.advance
  place {c : Cursor} : At c → c.peek.kind ≠ .eof → Place c.peek.position
  pos {e : Expr} : OfExpr e → Place e.pos
  bool {p : Position} (b : Bool) : Place p → OfExpr (.bool b p)
  int {p : Position} (n : Int64) : Place p → OfExpr (.int n p)
  float {p : Position} (x : Float) : Place p → OfExpr (.float x p)
  var {p : Position} (name : String) : Place p → OfExpr (.var name p)
  literal {p : Position} {parts : List Part} :
    Place p → (∀ e, .expr e ∈ parts → OfExpr e) → OfExpr (Part.literal parts p)
  list {p : Position} {items : List Expr} : Place p → (∀ e ∈ items, OfExpr e) →
    OfExpr (.list items p)
  unary {p : Position} {e : Expr} (op : UnaryOp) : Place p → OfExpr e → OfExpr (.unary op e p)
  trailing {p : Position} {e : Expr} (op : StepOp) : Place p → OfExpr e → OfExpr (.trailing op e p)
  binary {p : Position} {l r : Expr} (op : BinaryOp) : Place p → OfExpr l → OfExpr r →
    OfExpr (.binary op l r p)
  ternary {p : Position} {c x y : Expr} :
    Place p → OfExpr c → OfExpr x → OfExpr y → OfExpr (.ternary c x y p)
  call {p : Position} {callee : Expr} {args : List Arg} :
    Place p → OfExpr callee → (∀ name e, .mk name e ∈ args → OfExpr e) →
    OfExpr (.call callee args p)
  subscript {p : Position} {target index : Expr} :
    Place p → OfExpr target → OfExpr index → OfExpr (.subscript target index p)
  block {p : Position} {body : List Stmt} {d : Cursor} :
    Place p → (∀ s ∈ body, ∃ d, OfStmt s d) → OfStmt (.block body p) d
  ifThen {p : Position} {c : Expr} {x : Stmt} {d : Cursor} :
    Place p → OfExpr c → OfStmt x d → d.peek.kind ≠ .keyword .kwElse → OfStmt (.ifElse c x none p) d
  ifElse {p : Position} {c : Expr} {x y : Stmt} {d d' : Cursor} :
    Place p → OfExpr c → OfStmt x d → d.peek.kind = .keyword .kwElse → OfStmt y d' →
    OfStmt (.ifElse c x (some y) p) d'
  switch {p : Position} {e : Expr} {sections : List Section} {d : Cursor} :
    Place p → OfExpr e →
    (∀ sec ∈ sections, sec.labels ≠ [] ∧ (∀ e, .case e ∈ sec.labels → OfExpr e) ∧
      ∀ s ∈ sec.body, ∃ d, OfStmt s d) →
    OfStmt (.switch e sections p) d
  whileLoop {p : Position} {c : Expr} {body : Stmt} {d : Cursor} :
    Place p → OfExpr c → OfStmt body d → OfStmt (.whileLoop c body p) d
  forLoop {p : Position} {init c step : Option Expr} {body : Stmt} {d : Cursor} :
    Place p → (∀ e ∈ init, OfExpr e) → (∀ e ∈ c, OfExpr e) → (∀ e ∈ step, OfExpr e) →
    OfStmt body d → OfStmt (.forLoop init c step body p) d
  breakLoop {p : Position} {d : Cursor} : Place p → OfStmt (.breakLoop p) d
  continueLoop {p : Position} {d : Cursor} : Place p → OfStmt (.continueLoop p) d
  returnValue {p : Position} {e : Option Expr} {d : Cursor} :
    Place p → (∀ e' ∈ e, OfExpr e') → OfStmt (.returnValue e p) d
  expr {e : Expr} {d : Cursor} : OfExpr e → OfStmt (.expr e) d
  declare {p : Position} {name : String} {params : List Param} {body : List Stmt} {d : Cursor} :
    Place p → (∀ q ∈ params, ∀ e ∈ q.default, OfExpr e) → (∀ s ∈ body, ∃ d, OfStmt s d) →
    OfStmt (.declare (.mk name params body p)) d

namespace TreeRules

variable {R : TreeRules} {α β : Type} {c : Cursor}

/-- A run of a parser from a cursor, if it succeeds, ends at a cursor of the rules with a value that
has the property. -/
def Grows (R : TreeRules) (c : Cursor) (p : Parser α) (Q : α → Cursor → Prop) : Prop :=
  R.At c → p.Meets c (fun a d => R.At d ∧ Q a d) fun _ => True

theorem Grows.pure {a : α} {Q : α → Cursor → Prop} (h : Q a c) : R.Grows c (pure a) Q :=
  fun hc => ⟨hc, h⟩

theorem Grows.exhausted {Q : α → Cursor → Prop} : R.Grows c (exhausted : Parser α) Q :=
  fun _ => trivial

theorem Grows.fail {fault : Cursor → SyntaxFault} {Q : α → Cursor → Prop} :
    R.Grows c (fail fault : Parser α) Q :=
  fun _ => trivial

/-- What follows starts where the first parser stops, with what it returned. -/
theorem Grows.bind {p : Parser α} {f : α → Parser β} {Q : α → Cursor → Prop}
    {Q' : β → Cursor → Prop} (h : R.Grows c p Q) (hf : ∀ a d, Q a d → R.Grows d (f a) Q') :
    R.Grows c (p >>= f) Q' :=
  fun hc => (h hc).bind fun a d _ hd => hf a d hd.2 hd.1

/-- What follows a look at the next token may use its position, unless the input is used up. -/
theorem Grows.peek {f : Token → Parser α} {Q : α → Cursor → Prop}
    (h : (c.peek.kind ≠ .eof → R.Place c.peek.position) → R.Grows c (f c.peek) Q) :
    R.Grows c (peek >>= f) Q :=
  fun hc => meets_bind_of_ok (peek_run c) (h (fun hend => R.place hc hend) hc)

theorem Grows.check (kind : TokenKind) : R.Grows c (check kind) fun _ _ => True :=
  fun hc => ⟨hc, trivial⟩

/-- A look for the end does not move the cursor. -/
theorem Grows.atEnd : R.Grows c atEnd fun ended d => d = c ∧ (ended = false → c.peek.kind ≠ .eof) :=
  fun hc => ⟨hc, rfl, of_decide_eq_false⟩

theorem Grows.advance : R.Grows c Parser.advance fun _ _ => True :=
  fun hc => ⟨R.advance hc, trivial⟩

/-- Whether a token was taken says what it was. -/
theorem Grows.accept (kind : TokenKind) :
    R.Grows c (accept kind) fun found d =>
      if found then c.peek.kind = kind else d = c ∧ c.peek.kind ≠ kind := by
  intro hc
  by_cases hkind : c.peek.kind = kind
  · exact meets_of_ok (accept_of_eq hkind) ⟨R.advance hc, hkind⟩
  · exact meets_of_ok (accept_of_ne hkind) ⟨hc, rfl, hkind⟩

theorem Grows.expect (s : Symbol) : R.Grows c (expect s) fun _ _ => True := by
  refine .bind (.accept _) fun found d _ => ?_
  cases found with
  | true => exact .pure trivial
  | false => exact .fail

theorem Grows.identifier : R.Grows c identifier fun _ _ => True := by
  refine .peek fun _ => ?_
  split
  · exact .bind .advance fun _ _ _ => .pure trivial
  · exact .fail

theorem Grows.require {wanted : Wanted} {p : Parser (Option α)} {Q : α → Cursor → Prop}
    (h : R.Grows c p fun result d => ∀ a ∈ result, Q a d) : R.Grows c (require wanted p) Q := by
  refine .bind h fun result d hd => ?_
  cases result with
  | some a => exact .pure (hd a rfl)
  | none => exact .fail

/-! ## 2. Expressions

Induction on fuel, with one lemma for each parser of the mutual block. -/

theorem Grows.argumentName : R.Grows c Expr.argumentName fun _ _ => True := by
  refine .peek fun _ => ?_
  refine .bind (Q := fun _ _ => True) (fun hc => ⟨hc, trivial⟩) fun second d _ => ?_
  split
  · exact .bind .advance fun _ _ _ => .bind .advance fun _ _ _ => .pure trivial
  · exact .pure trivial

structure ExprGrown (R : TreeRules) (n : Nat) : Prop where
  parse? (level : Nat) (c : Cursor) : R.Grows c (Expr.parse? n level) fun result _ =>
    ∀ e ∈ result, R.OfExpr e
  operand? (c : Cursor) : R.Grows c (Expr.operand? n) fun result _ => ∀ e ∈ result, R.OfExpr e
  extend (level : Nat) {left : Expr} (c : Cursor) :
    R.OfExpr left → R.Grows c (Expr.extend n level left) fun e _ => R.OfExpr e
  continueWith (k : Expr.Continuation) {left : Expr} (c : Cursor) :
    R.OfExpr left → R.Grows c (Expr.continueWith n left k) fun e _ => R.OfExpr e
  listItems (c : Cursor) : R.Grows c (Expr.listItems n) fun items _ => ∀ e ∈ items, R.OfExpr e
  arguments (c : Cursor) : R.Grows c (Expr.arguments n) fun args _ =>
    ∀ name e, .mk name e ∈ args → R.OfExpr e
  stringParts (c : Cursor) : R.Grows c (Expr.stringParts n) fun parts _ =>
    ∀ e, .expr e ∈ parts → R.OfExpr e

namespace ExprGrown

variable {n : Nat}

theorem expression (h : R.ExprGrown n) (level : Nat) (c : Cursor) :
    R.Grows c (require .expression (Expr.parse? n level)) fun e _ => R.OfExpr e :=
  .require (h.parse? level c)

theorem parse?_succ (h : R.ExprGrown n) (level : Nat) (c : Cursor) :
    R.Grows c (Expr.parse? (n + 1) level) fun result _ => ∀ e ∈ result, R.OfExpr e := by
  refine .bind (h.operand? c) fun result d hresult => ?_
  cases result with
  | some left =>
    refine .bind (h.extend level d (hresult left rfl)) fun e d' he => .pure ?_
    rintro _ ⟨⟩
    exact he
  | none => exact .pure (by simp)

/-- The tokens that begin an operand; all of them have a place. -/
theorem operand?_succ (h : R.ExprGrown n) (c : Cursor) :
    R.Grows c (Expr.operand? (n + 1)) fun result _ => ∀ e ∈ result, R.OfExpr e := by
  refine .peek fun hplace => ?_
  generalize hkind : c.peek.kind = kind at hplace ⊢
  split
  · next op hop =>
    have hend : kind ≠ .eof := by
      rintro rfl
      cases hop
    refine .bind .advance fun _ d _ => .bind (h.expression _ d) fun e d' he => .pure ?_
    rintro _ ⟨⟩
    exact R.unary op (hplace hend) he
  cases kind with
  | int n =>
    exact .bind .advance fun _ _ _ => .pure (by rintro _ ⟨⟩; exact R.int n (hplace (by simp)))
  | float x =>
    exact .bind .advance fun _ _ _ => .pure (by rintro _ ⟨⟩; exact R.float x (hplace (by simp)))
  | bool b =>
    exact .bind .advance fun _ _ _ => .pure (by rintro _ ⟨⟩; exact R.bool b (hplace (by simp)))
  | ident name =>
    exact .bind .advance fun _ _ _ => .pure (by rintro _ ⟨⟩; exact R.var name (hplace (by simp)))
  | strOpen =>
    refine .bind .advance fun _ d _ => .bind (h.stringParts d) fun parts d' hparts => .pure ?_
    rintro _ ⟨⟩
    exact R.literal (hplace (by simp)) hparts
  | symbol s =>
    cases s with
    | lparen =>
      refine .bind .advance fun _ d _ => .bind (h.expression _ d) fun e d' he => .bind (.expect _)
        fun _ _ _ => .pure ?_
      rintro _ ⟨⟩
      exact he
    | lbracket =>
      refine .bind .advance fun _ d _ => .bind (h.listItems d) fun items d' hitems => ?_
      refine .bind (.expect _) fun _ _ _ => .pure ?_
      rintro _ ⟨⟩
      exact R.list (hplace (by simp)) hitems
    | _ => exact .pure (by simp)
  | _ => exact .pure (by simp)

/-- An operand is extended as long as an operator follows that binds tightly enough. -/
theorem extend_succ (h : R.ExprGrown n) (level : Nat) {left : Expr} (c : Cursor)
    (hleft : R.OfExpr left) :
    R.Grows c (Expr.extend (n + 1) level left) fun e _ => R.OfExpr e := by
  refine .peek fun _ => ?_
  split
  · next k _ =>
    split
    · refine .bind .advance fun _ d _ => .bind (h.continueWith k d hleft)
        fun longer d' hlonger => ?_
      exact h.extend level d' hlonger
    · exact .pure hleft
  · exact .pure hleft

/-- A longer expression has the position of its first part. -/
theorem continueWith_succ (h : R.ExprGrown n) (k : Expr.Continuation) {left : Expr} (c : Cursor)
    (hleft : R.OfExpr left) :
    R.Grows c (Expr.continueWith (n + 1) left k) fun e _ => R.OfExpr e := by
  have hplace := R.pos hleft
  cases k with
  | binary op => exact .bind (h.expression _ c) fun r _ hr => .pure (R.binary op hplace hleft hr)
  | ternary =>
    refine .bind (h.expression _ c) fun x _ hx => .bind (.expect _) fun _ d _ => ?_
    exact .bind (h.expression _ d) fun y _ hy => .pure (R.ternary hplace hleft hx hy)
  | call =>
    refine .bind (h.arguments c) fun args _ hargs => .bind (.expect _) fun _ _ _ => ?_
    exact .pure (R.call hplace hleft hargs)
  | subscript =>
    refine .bind (h.expression _ c) fun index _ hindex => .bind (.expect _) fun _ _ _ => ?_
    exact .pure (R.subscript hplace hleft hindex)
  | step op => exact .pure (R.trailing op hplace hleft)

theorem listItems_succ (h : R.ExprGrown n) (c : Cursor) :
    R.Grows c (Expr.listItems (n + 1)) fun items _ => ∀ e ∈ items, R.OfExpr e := by
  refine .bind (.check _) fun closed c _ => .bind .atEnd fun ended c' _ => ?_
  split
  · exact .pure (by simp)
  · refine .bind (h.expression _ c') fun item d hitem => .bind (.accept _) fun more d' _ => ?_
    split
    · refine .bind (h.listItems d') fun items _ hitems => .pure ?_
      exact List.forall_mem_cons.2 ⟨hitem, hitems⟩
    · exact .pure (List.forall_mem_singleton.2 hitem)

theorem arguments_succ (h : R.ExprGrown n) (c : Cursor) :
    R.Grows c (Expr.arguments (n + 1)) fun args _ => ∀ name e, .mk name e ∈ args → R.OfExpr e := by
  refine .bind (.check _) fun closed c _ => .bind .atEnd fun ended c' _ => ?_
  split
  · exact .pure (by simp)
  · refine .bind .argumentName fun name d _ => .bind (h.expression _ d) fun value d' hvalue => ?_
    refine .bind (.accept _) fun more d'' _ => ?_
    split
    · refine .bind (h.arguments d'') fun args _ hargs => .pure fun name' e he => ?_
      rcases List.mem_cons.1 he with heq | he
      · cases heq
        exact hvalue
      · exact hargs name' e he
    · refine .pure fun name' e he => ?_
      cases List.mem_singleton.1 he
      exact hvalue

/-- Text between two expressions is kept, and no property is asked of it. -/
theorem stringParts_succ (h : R.ExprGrown n) (c : Cursor) :
    R.Grows c (Expr.stringParts (n + 1)) fun parts _ => ∀ e, .expr e ∈ parts → R.OfExpr e := by
  refine .peek fun _ => ?_
  split
  · refine .bind .advance fun _ d _ => .bind (h.stringParts d) fun parts _ hparts =>
      .pure fun e he => ?_
    exact hparts e (by simpa using he)
  · refine .bind .advance fun _ d _ => .bind (h.expression _ d) fun first d' hfirst => ?_
    refine .bind (.accept _) fun closed d'' _ => ?_
    split
    · refine .bind (h.stringParts d'') fun parts _ hparts => .pure fun e he => ?_
      rcases List.mem_cons.1 he with heq | he
      · cases heq
        exact hfirst
      · exact hparts e he
    · exact .fail
  · exact .bind .advance fun _ _ _ => .pure (by simp)
  · exact .fail

end ExprGrown

/-- The induction on fuel over all parsers of expressions. -/
theorem exprGrown (R : TreeRules) (n : Nat) : R.ExprGrown n := by
  induction n with
  | zero =>
    exact ⟨fun _ _ => .exhausted, fun _ => .exhausted, fun _ _ _ _ => .exhausted,
      fun _ _ _ _ => .exhausted, fun _ => .exhausted, fun _ => .exhausted, fun _ => .exhausted⟩
  | succ n ih =>
    exact ⟨ih.parse?_succ, ih.operand?_succ, ih.extend_succ, ih.continueWith_succ,
      ih.listItems_succ, ih.arguments_succ, ih.stringParts_succ⟩

theorem grows_expression (n level : Nat) (c : Cursor) :
    R.Grows c (Expr.parse? n level) fun result _ => ∀ e ∈ result, R.OfExpr e :=
  (exprGrown R n).parse? level c

/-! ## 3. Statements

The token behind an `if` is known when the tree is built, which the rule for it may use. -/

theorem grows_parseCondition (n : Nat) (c : Cursor) :
    R.Grows c (Stmt.parseCondition n) fun e _ => R.OfExpr e :=
  .bind (.expect _) fun _ d _ => .bind (.require (grows_expression n _ d)) fun _ _ he =>
    .bind (.expect _) fun _ _ _ => .pure he

theorem grows_optionalSemicolon : R.Grows c Stmt.optionalSemicolon fun _ _ => True :=
  .bind (.accept _) fun _ _ _ => .pure trivial

theorem grows_parseLabels (n : Nat) (c : Cursor) :
    R.Grows c (Stmt.parseLabels n) fun labels _ => ∀ e, .case e ∈ labels → R.OfExpr e := by
  induction n generalizing c with
  | zero => exact .exhausted
  | succ n ih =>
    refine .bind (.accept _) fun isCase d _ => ?_
    split
    · refine .bind (.require (grows_expression n _ d)) fun value _ hvalue => .bind (.expect _)
        fun _ d' _ => ?_
      refine .bind (ih d') fun labels _ hlabels => .pure fun e he => ?_
      rcases List.mem_cons.1 he with heq | he
      · cases heq
        exact hvalue
      · exact hlabels e he
    · refine .bind (.accept _) fun isDefault d' _ => ?_
      split
      · refine .bind (.expect _) fun _ d'' _ => .bind (ih d'') fun labels _ hlabels =>
          .pure fun e he => ?_
        exact hlabels e (by simpa using he)
      · exact .pure (by simp)

/-- A section has a label, so the parser refuses one without. -/
theorem grows_parseSomeLabels (n : Nat) (c : Cursor) :
    R.Grows c (Stmt.parseSomeLabels n) fun labels _ =>
      labels ≠ [] ∧ ∀ e, .case e ∈ labels → R.OfExpr e := by
  refine .bind (grows_parseLabels n c) fun labels _ hlabels => ?_
  split
  · exact .fail
  · next hne => exact .pure ⟨hne, hlabels⟩

theorem grows_paramDefault (n : Nat) (name : String) (c : Cursor) :
    R.Grows c (Stmt.paramDefault n name) fun default _ => ∀ e ∈ default, R.OfExpr e := by
  refine .bind (.accept _) fun given d _ => ?_
  split
  · refine .bind (grows_expression n _ d) fun value _ hvalue => ?_
    split
    · exact .pure hvalue
    · exact .fail
  · exact .pure (by simp)

theorem grows_parseParams (n : Nat) (c : Cursor) :
    R.Grows c (Stmt.parseParams n) fun params _ => ∀ q ∈ params, ∀ e ∈ q.default, R.OfExpr e := by
  induction n generalizing c with
  | zero => exact .exhausted
  | succ n ih =>
    refine .bind (.check _) fun closed c _ => .bind .atEnd fun ended c' _ => ?_
    split
    · exact .pure (by simp)
    · refine .peek fun _ => .bind .identifier fun name d _ => .bind (grows_paramDefault n name d)
        fun value d' hvalue => ?_
      refine .bind (.accept _) fun more d'' _ => ?_
      split
      · refine .bind (ih d'') fun params _ hparams => .pure ?_
        exact List.forall_mem_cons.2 ⟨hvalue, hparams⟩
      · exact .pure (List.forall_mem_singleton.2 hvalue)

structure StmtGrown (R : TreeRules) (n : Nat) : Prop where
  parseMany (stop : TokenKind → Bool) (c : Cursor) :
    R.Grows c (Stmt.parseMany n stop) fun body _ => ∀ s ∈ body, ∃ d, R.OfStmt s d
  parse? (c : Cursor) : R.Grows c (Stmt.parse? n) fun result d => ∀ s ∈ result, R.OfStmt s d
  parseBody (c : Cursor) : R.Grows c (Stmt.parseBody n) R.OfStmt
  parseBlock (c : Cursor) : R.Grows c (Stmt.parseBlock n) fun body _ =>
    ∀ s ∈ body, ∃ d, R.OfStmt s d
  parseSections (c : Cursor) : R.Grows c (Stmt.parseSections n) fun sections _ =>
    ∀ sec ∈ sections, sec.labels ≠ [] ∧ (∀ e, .case e ∈ sec.labels → R.OfExpr e) ∧
    ∀ s ∈ sec.body, ∃ d, R.OfStmt s d

namespace StmtGrown

variable {n : Nat}

theorem parseMany_succ (h : R.StmtGrown n) (stop : TokenKind → Bool) (c : Cursor) :
    R.Grows c (Stmt.parseMany (n + 1) stop) fun body _ => ∀ s ∈ body, ∃ d, R.OfStmt s d := by
  refine .bind .atEnd fun ended c' _ => .peek fun _ => ?_
  split
  · exact .pure (by simp)
  · refine .bind (h.parse? c') fun result d hresult => ?_
    cases result with
    | some s =>
      refine .bind (h.parseMany stop d) fun body _ hbody => .pure ?_
      exact List.forall_mem_cons.2 ⟨⟨d, hresult s rfl⟩, hbody⟩
    | none => exact .bind .advance fun _ d' _ => h.parseMany stop d'

/-- One case for each token that begins a statement. -/
theorem parse?_succ (h : R.StmtGrown n) (c : Cursor) :
    R.Grows c (Stmt.parse? (n + 1)) fun result d => ∀ s ∈ result, R.OfStmt s d := by
  refine .peek fun hplace => ?_
  split
  · next hkind =>
    refine .bind (h.parseBlock c) fun body _ hbody => .pure ?_
    rintro _ ⟨⟩
    exact R.block (hplace (by simp [hkind])) hbody
  · next hkind =>
    refine .bind .advance fun _ d _ => .bind (grows_parseCondition n d) fun cond d hcond => ?_
    refine .bind (h.parseBody d) fun x d hx => .bind (.accept _) fun other d' hother => ?_
    cases other with
    | true =>
      refine .bind (h.parseBody d') fun y d'' hy => .pure ?_
      rintro _ ⟨⟩
      exact R.ifElse (hplace (by simp [hkind])) hcond hx hother hy
    -- Here the rule learns that no `else` follows.
    | false =>
      obtain ⟨rfl, hnone⟩ := hother
      refine .pure ?_
      rintro _ ⟨⟩
      exact R.ifThen (hplace (by simp [hkind])) hcond hx hnone
  · next hkind =>
    refine .bind .advance fun _ d _ => .bind (grows_parseCondition n d) fun subject d hsubject => ?_
    refine .bind (.accept _) fun braced d _ => ?_
    split
    · refine .bind (h.parseSections d) fun sections _ hsections => .bind (.expect _)
        fun _ _ _ => .pure ?_
      rintro _ ⟨⟩
      exact R.switch (hplace (by simp [hkind])) hsubject hsections
    · refine .bind (grows_parseSomeLabels n d) fun labels d hlabels => .bind (h.parseBody d)
        fun s d' hs => .pure ?_
      rintro _ ⟨⟩
      refine R.switch (hplace (by simp [hkind])) hsubject
        (List.forall_mem_singleton.2 ⟨hlabels.1, hlabels.2, ?_⟩)
      exact List.forall_mem_singleton.2 ⟨d', hs⟩
  · next hkind =>
    refine .bind .advance fun _ d _ => .bind (grows_parseCondition n d) fun cond d hcond => ?_
    refine .bind (h.parseBody d) fun body _ hbody => .pure ?_
    rintro _ ⟨⟩
    exact R.whileLoop (hplace (by simp [hkind])) hcond hbody
  · next hkind =>
    refine .bind .advance fun _ _ _ => .bind (.expect _) fun _ d _ => .bind (grows_expression n _ d)
      fun init _ hinit => ?_
    refine .bind (.expect _) fun _ d _ => .bind (grows_expression n _ d) fun cond _ hcond => ?_
    refine .bind (.expect _) fun _ d _ => .bind (grows_expression n _ d) fun step _ hstep => ?_
    refine .bind (.expect _) fun _ d _ => .bind (h.parseBody d) fun body _ hbody => .pure ?_
    rintro _ ⟨⟩
    exact R.forLoop (hplace (by simp [hkind])) hinit hcond hstep hbody
  · next hkind =>
    refine .bind .advance fun _ _ _ => .bind .identifier fun name _ _ => .bind (.expect _)
      fun _ d _ => ?_
    refine .bind (grows_parseParams n d) fun params _ hparams => .bind (.expect _) fun _ _ _ => ?_
    refine .bind (.check _) fun braced d _ => ?_
    split
    · refine .bind (h.parseBlock d) fun body _ hbody => .pure ?_
      rintro _ ⟨⟩
      exact R.declare (hplace (by simp [hkind])) hparams hbody
    · exact .fail
  · next hkind =>
    refine .bind .advance fun _ _ _ => .bind grows_optionalSemicolon fun _ _ _ => .pure ?_
    rintro _ ⟨⟩
    exact R.breakLoop (hplace (by simp [hkind]))
  · next hkind =>
    refine .bind .advance fun _ _ _ => .bind grows_optionalSemicolon fun _ _ _ => .pure ?_
    rintro _ ⟨⟩
    exact R.continueLoop (hplace (by simp [hkind]))
  · next hkind =>
    refine .bind .advance fun _ d _ => .bind (grows_expression n _ d) fun value _ hvalue => ?_
    refine .bind grows_optionalSemicolon fun _ _ _ => .pure ?_
    rintro _ ⟨⟩
    exact R.returnValue (hplace (by simp [hkind])) hvalue
  · refine .bind (grows_expression n _ c) fun result _ hresult => ?_
    cases result with
    | some e =>
      refine .bind grows_optionalSemicolon fun _ _ _ => .pure ?_
      rintro _ ⟨⟩
      exact R.expr (hresult e rfl)
    | none => exact .pure (by simp)

/-- A semicolon where a statement is needed is read as an empty block. -/
theorem parseBody_succ (h : R.StmtGrown n) (c : Cursor) :
    R.Grows c (Stmt.parseBody (n + 1)) R.OfStmt := by
  refine .peek fun hplace => .bind (.accept _) fun empty d hempty => ?_
  cases empty with
  | true =>
    have hkind : c.peek.kind = .symbol .semicolon := hempty
    exact .pure (R.block (hplace (by simp [hkind])) (by simp))
  | false => exact .require (h.parse? d)

theorem parseBlock_succ (h : R.StmtGrown n) (c : Cursor) :
    R.Grows c (Stmt.parseBlock (n + 1)) fun body _ => ∀ s ∈ body, ∃ d, R.OfStmt s d :=
  .bind (.expect _) fun _ d _ => .bind (h.parseMany _ d) fun _ _ hbody => .bind (.expect _)
    fun _ _ _ => .pure hbody

theorem parseSections_succ (h : R.StmtGrown n) (c : Cursor) :
    R.Grows c (Stmt.parseSections (n + 1)) fun sections _ =>
      ∀ sec ∈ sections,
        sec.labels ≠ [] ∧ (∀ e, .case e ∈ sec.labels → R.OfExpr e) ∧
        ∀ s ∈ sec.body, ∃ d, R.OfStmt s d := by
  refine .bind (.check _) fun closed c _ => .bind .atEnd fun ended c' _ => ?_
  split
  · exact .pure (by simp)
  · refine .bind (grows_parseSomeLabels n c') fun labels d hlabels => .bind (h.parseMany _ d)
      fun body d' hbody => ?_
    refine .bind (h.parseSections d') fun sections _ hsections => .pure ?_
    exact List.forall_mem_cons.2 ⟨⟨hlabels.1, hlabels.2, hbody⟩, hsections⟩

end StmtGrown

/-- The induction on fuel over all parsers of statements. -/
theorem stmtGrown (R : TreeRules) (n : Nat) : R.StmtGrown n := by
  induction n with
  | zero =>
    exact ⟨fun _ _ => .exhausted, fun _ => .exhausted, fun _ => .exhausted, fun _ => .exhausted,
      fun _ => .exhausted⟩
  | succ n ih =>
    exact ⟨ih.parseMany_succ, ih.parse?_succ, ih.parseBody_succ, ih.parseBlock_succ,
      ih.parseSections_succ⟩

/-- Every statement of a parsed program has the property. -/
theorem ofStmt_of_parse (R : TreeRules) {tokens : List Token} {p : Program} {d : Cursor}
    (hstart : R.At (.ofTokens tokens)) (h : Program.parse tokens = .ok p d) :
    ∀ s ∈ p, ∃ d, R.OfStmt s d :=
  (((stmtGrown R _).parseMany _ _ hstart).of_ok h).2

end TreeRules
end Scriptlet
