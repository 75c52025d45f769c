import Scriptlet.Proofs.LiteralNesting
import Scriptlet.Proofs.ParsedTrees
import Scriptlet.Proofs.ParserRefinement

/-!
# The nodes of trees, and the lines they stand on

`Expr.nodes` lists an expression with all expressions inside of it, and `Stmt.nodes` all expressions
of a statement, down into the bodies of functions that it declares.  A property of all nodes splits
into one of the root and those of the parts (`Expr.All`, `Stmt.All`), so it can be followed through
a parser and through an evaluation.  The first use is that every node of a parsed source stands on a
line of it, counted from one: the scanner counts so, and a node takes its position from a token.

Errors name the lines of nodes, as §10.2 of the specification asks.
-/

namespace Scriptlet

/-! ## 1. Nodes

Lists of parts have functions of their own, so that the recursion is structural. -/

mutual
/-- The expression and all expressions inside of it. -/
def Expr.nodes : Expr → List Expr
  | .bool b p => [.bool b p]
  | .int n p => [.int n p]
  | .float x p => [.float x p]
  | .str s p => [.str s p]
  | .interpolation parts p => .interpolation parts p :: nodesOfParts parts
  | .list items p => .list items p :: nodesOfItems items
  | .var name p => [.var name p]
  | .unary op e p => .unary op e p :: e.nodes
  | .trailing op e p => .trailing op e p :: e.nodes
  | .binary op l r p => .binary op l r p :: (l.nodes ++ r.nodes)
  | .ternary c t f p => .ternary c t f p :: (c.nodes ++ (t.nodes ++ f.nodes))
  | .call callee args p => .call callee args p :: (callee.nodes ++ nodesOfArgs args)
  | .subscript target index p => .subscript target index p :: (target.nodes ++ index.nodes)

def Expr.nodesOfParts : List Part → List Expr
  | [] => []
  | .text _ :: parts => nodesOfParts parts
  | .expr e :: parts => e.nodes ++ nodesOfParts parts

def Expr.nodesOfItems : List Expr → List Expr
  | [] => []
  | e :: items => e.nodes ++ nodesOfItems items

def Expr.nodesOfArgs : List Arg → List Expr
  | [] => []
  | .mk _ e :: args => e.nodes ++ nodesOfArgs args
end

def Expr.nodesOfOption (e : Option Expr) : List Expr := e.toList.flatMap Expr.nodes

def Label.nodes : Label → List Expr
  | .case e => e.nodes
  | .default => []

mutual
def Stmt.nodes : Stmt → List Expr
  | .block body _ => nodesMany body
  | .ifElse c t none _ => c.nodes ++ t.nodes
  | .ifElse c t (some f) _ => c.nodes ++ (t.nodes ++ f.nodes)
  | .switch e sections _ => e.nodes ++ nodesOfSections sections
  | .whileLoop c body _ => c.nodes ++ body.nodes
  | .forLoop init c step body _ =>
    Expr.nodesOfOption init ++ (Expr.nodesOfOption c ++ (Expr.nodesOfOption step ++ body.nodes))
  | .breakLoop _ => []
  | .continueLoop _ => []
  | .returnValue e _ => Expr.nodesOfOption e
  | .expr e => e.nodes
  | .declare (.mk _ params body _) =>
    params.flatMap (Expr.nodesOfOption ·.default) ++ nodesMany body

def Stmt.nodesMany : List Stmt → List Expr
  | [] => []
  | s :: body => s.nodes ++ nodesMany body

def Stmt.nodesOfSections : List Section → List Expr
  | [] => []
  | .mk labels body :: sections =>
    labels.flatMap Label.nodes ++ (nodesMany body ++ nodesOfSections sections)
end

/-! ## 2. Properties of all nodes

For each form one lemma that splits the property. -/

def Expr.All (P : Expr → Prop) (e : Expr) : Prop := ∀ x ∈ e.nodes, P x

def Stmt.All (P : Expr → Prop) (s : Stmt) : Prop := ∀ x ∈ s.nodes, P x

section All

variable {P : Expr → Prop}

theorem Expr.mem_nodesOfParts {x : Expr} {parts : List Part} :
    x ∈ nodesOfParts parts ↔ ∃ e, .expr e ∈ parts ∧ x ∈ e.nodes := by
  induction parts with
  | nil => exact ⟨nofun, nofun⟩
  | cons part parts ih =>
    cases part with
    | text t =>
      have hcons : x ∈ nodesOfParts (.text t :: parts) ↔ x ∈ nodesOfParts parts := Iff.rfl
      simp [hcons, ih]
    | expr e =>
      have hcons : x ∈ nodesOfParts (.expr e :: parts) ↔ x ∈ e.nodes ∨ x ∈ nodesOfParts parts :=
        List.mem_append
      simp [hcons, ih, or_and_right, exists_or]

theorem Expr.mem_nodesOfItems {x : Expr} {items : List Expr} :
    x ∈ nodesOfItems items ↔ ∃ e ∈ items, x ∈ e.nodes := by
  induction items with
  | nil => exact ⟨nofun, nofun⟩
  | cons e items ih =>
    have hcons : x ∈ nodesOfItems (e :: items) ↔ x ∈ e.nodes ∨ x ∈ nodesOfItems items :=
      List.mem_append
    simp [hcons, ih]

theorem Expr.mem_nodesOfArgs {x : Expr} {args : List Arg} :
    x ∈ nodesOfArgs args ↔ ∃ name e, .mk name e ∈ args ∧ x ∈ e.nodes := by
  induction args with
  | nil => exact ⟨nofun, nofun⟩
  | cons arg args ih =>
    obtain ⟨name, e⟩ := arg
    have hcons : x ∈ nodesOfArgs (.mk name e :: args) ↔ x ∈ e.nodes ∨ x ∈ nodesOfArgs args :=
      List.mem_append
    simp only [hcons, ih, List.mem_cons, Arg.mk.injEq]
    constructor
    · rintro (hx | ⟨name', e', hmem, hx⟩)
      · exact ⟨name, e, .inl ⟨rfl, rfl⟩, hx⟩
      · exact ⟨name', e', .inr hmem, hx⟩
    · rintro ⟨name', e', ⟨rfl, rfl⟩ | hmem, hx⟩
      · exact .inl hx
      · exact .inr ⟨name', e', hmem, hx⟩

theorem Expr.mem_nodesOfOption {x : Expr} {e : Option Expr} :
    x ∈ nodesOfOption e ↔ ∃ e' ∈ e, x ∈ e'.nodes := by
  simp [nodesOfOption]

theorem Stmt.mem_nodesMany {x : Expr} {body : List Stmt} :
    x ∈ nodesMany body ↔ ∃ s ∈ body, x ∈ s.nodes := by
  induction body with
  | nil => exact ⟨nofun, nofun⟩
  | cons s body ih =>
    have hcons : x ∈ nodesMany (s :: body) ↔ x ∈ s.nodes ∨ x ∈ nodesMany body := List.mem_append
    simp [hcons, ih]

theorem Label.mem_flatMap_nodes {x : Expr} {labels : List Label} :
    x ∈ labels.flatMap Label.nodes ↔ ∃ e, .case e ∈ labels ∧ x ∈ e.nodes := by
  rw [List.mem_flatMap]
  constructor
  · rintro ⟨label, hlabel, hx⟩
    cases label with
    | case e => exact ⟨e, hlabel, hx⟩
    | default => cases hx
  · rintro ⟨e, he, hx⟩
    exact ⟨.case e, he, hx⟩

theorem Stmt.mem_nodesOfSections {x : Expr} {sections : List Section} :
    x ∈ nodesOfSections sections ↔
      ∃ sec ∈ sections, (∃ e, .case e ∈ sec.labels ∧ x ∈ e.nodes) ∨
        ∃ s ∈ sec.body, x ∈ s.nodes := by
  induction sections with
  | nil => exact ⟨nofun, nofun⟩
  | cons sec sections ih =>
    obtain ⟨labels, body⟩ := sec
    have hcons : x ∈ nodesOfSections (.mk labels body :: sections) ↔
        x ∈ labels.flatMap Label.nodes ∨ x ∈ nodesMany body ++ nodesOfSections sections :=
      List.mem_append
    simp only [hcons, List.mem_append, Label.mem_flatMap_nodes, mem_nodesMany, ih, List.mem_cons,
      exists_eq_or_imp, Section.labels, Section.body, or_assoc]

namespace Expr

/-! The nodes of a tree are its root and those of its parts by definition, so each splitting lemma
is one about the members of a list. -/

theorem mem_nodes_self (e : Expr) : e ∈ e.nodes := by
  cases e <;> exact List.mem_cons_self

theorem All.self {e : Expr} (h : e.All P) : P e := h e e.mem_nodes_self

theorem all_of_leaf {e : Expr} (hleaf : e.nodes = [e]) (hroot : P e) : e.All P := by
  intro x hx
  rw [hleaf] at hx
  exact List.mem_singleton.1 hx ▸ hroot

theorem all_interpolation {parts : List Part} {p : Position} :
    (interpolation parts p).All P ↔ P (interpolation parts p) ∧ ∀ e, .expr e ∈ parts → e.All P := by
  refine List.forall_mem_cons.trans (and_congr_right fun _ => ?_)
  simp only [All, mem_nodesOfParts]
  grind

theorem all_list {items : List Expr} {p : Position} :
    (list items p).All P ↔ P (list items p) ∧ ∀ e ∈ items, e.All P := by
  refine List.forall_mem_cons.trans (and_congr_right fun _ => ?_)
  simp only [All, mem_nodesOfItems]
  grind

theorem all_unary {op : UnaryOp} {e : Expr} {p : Position} :
    (unary op e p).All P ↔ P (unary op e p) ∧ e.All P := List.forall_mem_cons

theorem all_trailing {op : StepOp} {e : Expr} {p : Position} :
    (trailing op e p).All P ↔ P (trailing op e p) ∧ e.All P := List.forall_mem_cons

theorem all_binary {op : BinaryOp} {l r : Expr} {p : Position} :
    (binary op l r p).All P ↔ P (binary op l r p) ∧ l.All P ∧ r.All P :=
  List.forall_mem_cons.trans (and_congr_right fun _ => List.forall_mem_append)

theorem all_ternary {c t f : Expr} {p : Position} :
    (ternary c t f p).All P ↔ P (ternary c t f p) ∧ c.All P ∧ t.All P ∧ f.All P := by
  refine List.forall_mem_cons.trans (and_congr_right fun _ => ?_)
  exact List.forall_mem_append.trans (and_congr_right fun _ => List.forall_mem_append)

theorem all_call {callee : Expr} {args : List Arg} {p : Position} :
    (call callee args p).All P ↔
      P (call callee args p) ∧ callee.All P ∧ ∀ name e, .mk name e ∈ args → e.All P := by
  refine List.forall_mem_cons.trans (and_congr_right fun _ => ?_)
  refine List.forall_mem_append.trans (and_congr_right fun _ => ?_)
  simp only [All, mem_nodesOfArgs]
  grind

theorem all_subscript {target index : Expr} {p : Position} :
    (subscript target index p).All P ↔ P (subscript target index p) ∧ target.All P ∧ index.All P :=
  List.forall_mem_cons.trans (and_congr_right fun _ => List.forall_mem_append)

/-- A literal has the expressions that are embedded in it as its parts, whether there are any or
not. -/
theorem all_literal {parts : List Part} {p : Position} (hroot : ∀ e : Expr, e.pos = p → P e)
    (h : ∀ e, .expr e ∈ parts → e.All P) : (Part.literal parts p).All P := by
  simp only [Part.literal]
  split
  -- without embedded expressions it is a plain string
  · exact all_of_leaf rfl (hroot _ rfl)
  · exact all_interpolation.2 ⟨hroot _ rfl, h⟩

theorem all_option {e : Option Expr} : (∀ x ∈ nodesOfOption e, P x) ↔ ∀ e' ∈ e, e'.All P := by
  simp only [mem_nodesOfOption, All]
  grind

end Expr

namespace Stmt

theorem all_many {body : List Stmt} : (∀ x ∈ nodesMany body, P x) ↔ ∀ s ∈ body, s.All P := by
  simp only [mem_nodesMany, All]
  grind

theorem all_block {body : List Stmt} {p : Position} : (block body p).All P ↔ ∀ s ∈ body, s.All P :=
  all_many

theorem all_ifElse {c : Expr} {t : Stmt} {f : Option Stmt} {p : Position} :
    (ifElse c t f p).All P ↔ c.All P ∧ t.All P ∧ ∀ s ∈ f, s.All P := by
  cases f with
  | none =>
    have hall : (ifElse c t none p).All P ↔ c.All P ∧ t.All P := List.forall_mem_append
    simp [hall]
  | some s =>
    have hall : (ifElse c t (some s) p).All P ↔ c.All P ∧ t.All P ∧ s.All P :=
      List.forall_mem_append.trans (and_congr_right fun _ => List.forall_mem_append)
    simp [hall]

theorem all_switch {e : Expr} {sections : List Section} {p : Position} :
    (switch e sections p).All P ↔ e.All P ∧
      ∀ sec ∈ sections, (∀ e, .case e ∈ sec.labels → e.All P) ∧ ∀ s ∈ sec.body, s.All P := by
  refine List.forall_mem_append.trans (and_congr_right fun _ => ?_)
  simp only [All, Expr.All, mem_nodesOfSections]
  grind

theorem all_whileLoop {c : Expr} {body : Stmt} {p : Position} :
    (whileLoop c body p).All P ↔ c.All P ∧ body.All P := List.forall_mem_append

theorem all_forLoop {init c step : Option Expr} {body : Stmt} {p : Position} :
    (forLoop init c step body p).All P ↔
      (∀ e ∈ init, e.All P) ∧ (∀ e ∈ c, e.All P) ∧ (∀ e ∈ step, e.All P) ∧ body.All P := by
  refine List.forall_mem_append.trans (and_congr Expr.all_option ?_)
  refine List.forall_mem_append.trans (and_congr Expr.all_option ?_)
  exact List.forall_mem_append.trans (and_congr_left fun _ => Expr.all_option)

theorem all_declare {decl : FnDecl} :
    (declare decl).All P ↔
      (∀ q ∈ decl.params, ∀ e ∈ q.default, e.All P) ∧ ∀ s ∈ decl.body, s.All P := by
  obtain ⟨name, params, body, p⟩ := decl
  refine List.forall_mem_append.trans (and_congr ?_ all_many)
  simp only [List.mem_flatMap, Expr.mem_nodesOfOption, Expr.All, FnDecl.params]
  grind

end Stmt

end All

/-! ## 3. Lines of scanned tokens

The scanner counts up with each line that ends, and gives its tokens the line that it is in. -/

namespace Scan

theorem Reads.line_eq {p : Position} {s s' : State} {taken rest : List Char} {tokens : List Token}
    (h : Reads p s taken rest tokens s') : ∀ t ∈ tokens, t.position.line = p.line := by
  intro t ht
  cases h with
  | commentEnd _ | commentLine _ _ | blank _ _ | lineComment _ | commentStart _ => cases ht
  | lexeme _ _ | brace _ | strOpen _ =>
    obtain rfl := List.mem_singleton.1 ht
    rfl
  | strClose _ | interpOpen _ _ =>
    rcases List.mem_append.1 ht with ht | ht
    · exact line_of_mem_textToken ht
    · obtain rfl := List.mem_singleton.1 ht
      rfl

theorem linesFrom_le_line {n : Nat} {b : Bool} {source : List Char} {lines : List (List Char)}
    {tokens : List Token} (hsource : SplitsInto source lines)
    (h : linesFrom n b lines = .ok tokens) : ∀ t ∈ tokens, n ≤ t.position.line := by
  refine linesFrom_induction (P := fun p _ _ tokens => ∀ t ∈ tokens, p.line ≤ t.position.line)
    ?_ ?_ ?_ hsource h
  · intro p b t ht
    cases ht
  · intro p b ending source tokens _ hmore t ht
    exact Nat.le_of_succ_le (hmore t ht)
  · intro p s taken rest tail tokens s' more _ _ _ hreads hmore t ht
    rcases List.mem_append.1 ht with ht | ht
    · exact Nat.le_of_eq (hreads.line_eq t ht).symm
    · exact hmore t ht

end Scan

/-- Lines are counted from one. -/
theorem one_le_line_of_scan {source : String} {tokens : List Token}
    (h : Token.scan source = .ok tokens) :
    ∀ t ∈ tokens, t.kind ≠ .eof → 1 ≤ t.position.line := by
  obtain ⟨body, hbody, rfl⟩ := Scan.scan_eq_ok h
  intro t ht hproper
  rcases List.mem_append.1 ht with ht | ht
  · exact Scan.linesFrom_le_line (Scan.splitsInto_lines _) hbody t ht
  -- the mark of the end, which is no node
  · obtain rfl := List.mem_singleton.1 ht
    exact absurd rfl hproper

/-! ## 4. Lines of parsed nodes

One rule for each form of trees, from the position and from the parts. -/

/-- That nodes stand on lines from one on passes from tokens to trees. -/
def lineRules : TreeRules where
  At c := ∀ t ∈ c.rest, t.kind ≠ .eof → 1 ≤ t.position.line
  Place p := 1 ≤ p.line
  OfExpr e := e.All fun x => 1 ≤ x.pos.line
  OfStmt s _ := s.All fun x => 1 ≤ x.pos.line
  advance {c} hc := fun t ht => hc t (c.suffix_advance.subset ht)
  place {c} hc hend := by
    obtain ⟨previous, rest⟩ := c
    cases rest with
    | nil => exact absurd rfl hend
    | cons t rest => exact hc t (by simp) hend
  pos he := he.self
  bool _ hp := Expr.all_of_leaf rfl hp
  int _ hp := Expr.all_of_leaf rfl hp
  float _ hp := Expr.all_of_leaf rfl hp
  var _ hp := Expr.all_of_leaf rfl hp
  literal hp hparts := Expr.all_literal (fun e he => he ▸ hp) hparts
  list hp hitems := Expr.all_list.2 ⟨hp, hitems⟩
  unary _ hp he := Expr.all_unary.2 ⟨hp, he⟩
  trailing _ hp he := Expr.all_trailing.2 ⟨hp, he⟩
  binary _ hp hl hr := Expr.all_binary.2 ⟨hp, hl, hr⟩
  ternary hp hc hx hy := Expr.all_ternary.2 ⟨hp, hc, hx, hy⟩
  call hp hcallee hargs := Expr.all_call.2 ⟨hp, hcallee, hargs⟩
  subscript hp htarget hindex := Expr.all_subscript.2 ⟨hp, htarget, hindex⟩
  block _ hbody := Stmt.all_block.2 fun s hs => (hbody s hs).elim fun _ h => h
  ifThen _ hc hx _ := Stmt.all_ifElse.2 ⟨hc, hx, nofun⟩
  ifElse _ hc hx _ hy := Stmt.all_ifElse.2 ⟨hc, hx, fun s hs => Option.some.inj hs ▸ hy⟩
  switch _ he hsections := Stmt.all_switch.2 ⟨he, fun sec hsec =>
    ⟨(hsections sec hsec).2.1, fun s hs => ((hsections sec hsec).2.2 s hs).elim fun _ h => h⟩⟩
  whileLoop _ hc hbody := Stmt.all_whileLoop.2 ⟨hc, hbody⟩
  forLoop _ hinit hc hstep hbody := Stmt.all_forLoop.2 ⟨hinit, hc, hstep, hbody⟩
  breakLoop _ := nofun
  continueLoop _ := nofun
  returnValue _ he := Expr.all_option.2 he
  expr he := he
  declare _ hparams hbody :=
    Stmt.all_declare.2 ⟨hparams, fun s hs => (hbody s hs).elim fun _ h => h⟩

/-- Every node of a parsed source stands on a line from one on. -/
theorem one_le_line_of_parse {source : String} {tokens : List Token} {program : Program}
    {d : Cursor} (hscan : Token.scan source = .ok tokens)
    (hparse : Program.parse tokens = .ok program d) :
    ∀ x ∈ Stmt.nodesMany program, 1 ≤ x.pos.line := by
  have hall := lineRules.ofStmt_of_parse (one_le_line_of_scan hscan) hparse
  exact Stmt.all_many.2 fun s hs => (hall s hs).elim fun _ h => h

end Scriptlet
