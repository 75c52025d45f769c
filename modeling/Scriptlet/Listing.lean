import Scriptlet.Number.Shortest
import Scriptlet.Stmt
import Scriptlet.Text.Quoted
import Scriptlet.Token

/-!
# Listings of tokens and trees, for people who debug scripts

A listing shows a tree of records, tuples and lists with one field or member in a line, each
followed by a comma and indented by four columns for every level.

They are what `--tokens` and `--ast` print, by §10.4 of the specification.
-/

namespace Scriptlet

/-! ## 1. Trees and their layout

Layout does not depend on width: a field that is not an atom takes up several lines. -/

inductive Listing where
  | atom (text : String)
  | record (name : String) (fields : List (String × Listing))
  | tuple (name : String) (members : List Listing)
  | list (members : List Listing)

namespace Listing

def indent (depth : Nat) : String := String.ofList (List.replicate (4 * depth) ' ')

mutual
/-- A listing whose first line is indented already. -/
def render (depth : Nat) : Listing → String
  | atom text => text
  | record name [] => name
  | record name fields =>
    name ++ " \x7b\n" ++ renderFields (depth + 1) fields ++ indent depth ++ "\x7d"
  | tuple name members => name ++ "(\n" ++ renderMembers (depth + 1) members ++ indent depth ++ ")"
  | list [] => "[]"
  | list members => "[\n" ++ renderMembers (depth + 1) members ++ indent depth ++ "]"

def renderFields (depth : Nat) : List (String × Listing) → String
  | [] => ""
  | (name, l) :: more =>
    indent depth ++ name ++ ": " ++ render depth l ++ ",\n" ++ renderFields depth more

def renderMembers (depth : Nat) : List Listing → String
  | [] => ""
  | l :: more => indent depth ++ render depth l ++ ",\n" ++ renderMembers depth more
end

def ofText (s : String) : Listing := atom (Text.quoted s)

def ofOption (l : Option Listing) : Listing :=
  match l with
  | some l => tuple "Some" [l]
  | none => atom "None"

def ofPosition (p : Position) : Listing :=
  record "Span" [("line", atom (toString p.line)), ("column", atom (toString p.column))]

end Listing

/-! ## 2. Names

Operators are shown by the names of their constructors. -/

def StepOp.listed : StepOp → String
  | increment => "Increment"
  | decrement => "Decrement"

def UnaryOp.listed : UnaryOp → String
  | plus => "Plus"
  | neg => "Neg"
  | not => "Not"
  | bitNot => "BitNot"
  | step op => op.listed
  | ref => "Ref"

def ArithOp.listed : ArithOp → String
  | add => "Add"
  | sub => "Sub"
  | mul => "Mul"
  | div => "Div"
  | mod => "Mod"
  | shl => "Shl"
  | shr => "Shr"
  | bitAnd => "BitAnd"
  | bitOr => "BitOr"
  | bitXor => "BitXor"

def ArithOp.listedUpdate : ArithOp → String
  | bitAnd => "AndAssign"
  | bitOr => "OrAssign"
  | bitXor => "XorAssign"
  | op => op.listed ++ "Assign"

def RelationOp.listed : RelationOp → String
  | eq => "Eq"
  | notEq => "NotEq"
  | identical => "Identical"
  | notIdentical => "NotIdentical"
  | less => "Lt"
  | lessEq => "LtEq"
  | greater => "Gt"
  | greaterEq => "GtEq"

def BinaryOp.listed : BinaryOp → String
  | arith op => op.listed
  | and => "And"
  | or => "Or"
  | relation op => op.listed
  | spaceship => "Compare"
  | assign => "Assign"
  | update op => op.listedUpdate

/-! ## 3. Tokens

One line for each token, with its place in front. -/

/-- A token's kind in a listing, with the value of a literal in parentheses. -/
def TokenKind.describe (k : TokenKind) : String :=
  let value : Option String := match k with
    | .int n => some (toString n.toInt)
    | .float x => some (Decimal.listed.render x)
    | .bool b => some (if b then "true" else "false")
    | .ident s => some (Text.quoted s)
    | .strText s => some (Text.quoted s)
    | _ => none
  match value with
  | some v => s!"{k.listed}({v})"
  | none => k.listed

def padLeft (width : Nat) (s : String) : String :=
  String.ofList (List.replicate (width - s.length) ' ') ++ s

def padRight (width : Nat) (s : String) : String :=
  s ++ String.ofList (List.replicate (width - s.length) ' ')

def Token.describe (t : Token) : String :=
  padLeft 4 (toString t.position.line) ++ ":" ++ padRight 3 (toString t.position.column) ++ " "
    ++ t.kind.describe

/-! ## 4. Programs

Every node is shown with its position. -/

mutual
def Expr.listing : Expr → Listing
  | .bool b p => .tuple "Bool" [.atom (if b then "true" else "false"), .ofPosition p]
  | .int n p => .tuple "Int" [.atom (toString n.toInt), .ofPosition p]
  | .float x p => .tuple "Float" [.atom (Decimal.listed.render x), .ofPosition p]
  | .str s p => .tuple "Str" [.ofText s, .ofPosition p]
  | .interpolation parts p => .tuple "Interpolation" [.list (Part.listings parts), .ofPosition p]
  | .list items p => .tuple "List" [.list (Expr.listings items), .ofPosition p]
  | .var name p => .tuple "Variable" [.ofText name, .ofPosition p]
  | .unary op e p =>
    .record "Prefix" [("op", .atom op.listed), ("operand", e.listing), ("span", .ofPosition p)]
  | .trailing op e p =>
    .record "Postfix" [("op", .atom op.listed), ("operand", e.listing), ("span", .ofPosition p)]
  | .binary op l r p =>
    .record "Binary"
      [("left", l.listing), ("op", .atom op.listed), ("right", r.listing), ("span", .ofPosition p)]
  | .ternary c t f p =>
    .record "Ternary"
      [("condition", c.listing), ("then_expr", t.listing), ("else_expr", f.listing),
        ("span", .ofPosition p)]
  | .call f args p =>
    .record "Invocation" [("callee", f.listing), ("args", .list (Arg.listings args)),
      ("span", .ofPosition p)]
  | .subscript t i p =>
    .record "Subscript" [("target", t.listing), ("index", i.listing), ("span", .ofPosition p)]

def Expr.listings : List Expr → List Listing
  | [] => []
  | e :: es => e.listing :: Expr.listings es

def Part.listings : List Part → List Listing
  | [] => []
  | .text s :: ps => .tuple "Text" [.ofText s] :: Part.listings ps
  | .expr e :: ps => .tuple "Expr" [e.listing] :: Part.listings ps

def Arg.listings : List Arg → List Listing
  | [] => []
  | .mk name value :: as =>
    .record "CallArg" [("name", .ofOption (name.map .ofText)), ("value", value.listing)]
      :: Arg.listings as
end

def Expr.optionalListing (e : Option Expr) : Listing := .ofOption (e.map Expr.listing)

def Label.listing : Label → Listing
  | .case e => .tuple "Case" [e.listing]
  | .default => .atom "Default"

def Param.listing (p : Param) : Listing :=
  .record "ParamDecl"
    [("name", .ofText p.name), ("default", Expr.optionalListing p.default),
      ("span", .ofPosition p.pos)]

mutual
def Stmt.listing : Stmt → Listing
  | .block body p => .tuple "Block" [.list (Stmt.listings body), .ofPosition p]
  | .ifElse c t none p =>
    .tuple "If" [.record "IfStmt"
      [("condition", c.listing), ("then_branch", t.listing), ("else_branch", .ofOption none),
        ("span", .ofPosition p)]]
  | .ifElse c t (some f) p =>
    .tuple "If" [.record "IfStmt"
      [("condition", c.listing), ("then_branch", t.listing),
        ("else_branch", .ofOption (some f.listing)), ("span", .ofPosition p)]]
  | .switch subject sections p =>
    .tuple "Switch" [.record "SwitchStmt"
      [("discriminant", subject.listing), ("sections", .list (Section.listings sections)),
        ("span", .ofPosition p)]]
  | .whileLoop c body p =>
    .tuple "While" [.record "WhileStmt"
      [("condition", c.listing), ("body", body.listing), ("span", .ofPosition p)]]
  | .forLoop init c step body p =>
    .tuple "For" [.record "ForStmt"
      [("init", Expr.optionalListing init), ("condition", Expr.optionalListing c),
        ("step", Expr.optionalListing step), ("body", body.listing), ("span", .ofPosition p)]]
  | .breakLoop p => .tuple "Break" [.ofPosition p]
  | .continueLoop p => .tuple "Continue" [.ofPosition p]
  | .returnValue e p => .tuple "Return" [Expr.optionalListing e, .ofPosition p]
  | .expr e => .tuple "Expr" [e.listing]
  | .declare (.mk name params body p) =>
    .tuple "FnDecl" [.record "FnDecl"
      [("name", .ofText name), ("params", .list (params.map Param.listing)),
        ("body", .list (Stmt.listings body)), ("span", .ofPosition p)]]

def Stmt.listings : List Stmt → List Listing
  | [] => []
  | s :: more => s.listing :: Stmt.listings more

def Section.listings : List Section → List Listing
  | [] => []
  | .mk labels body :: more =>
    .record "SwitchSection" [("labels", .list (labels.map Label.listing)),
      ("body", .list (Stmt.listings body))]
      :: Section.listings more
end

def Program.describe (program : Program) : String :=
  (Listing.record "Program" [("statements", .list (Stmt.listings program))]).render 0

end Scriptlet
