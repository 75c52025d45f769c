import Scriptlet.Expr

/-!
# Statements, function declarations and programs

A program is a list of statements.  The forms are those of `IStatement` in §3 of the specification;
the sections of a `switch` keep their labels in the order of the source, since §4.8 lets that order
decide.
-/

namespace Scriptlet

inductive Label where
  | case (value : Expr)
  | default

/-- A parameter of a declared function.  Its default is evaluated in the scope of the call, where
the parameters before it are bound. -/
structure Param where
  name : String
  default : Option Expr
  pos : Position

mutual
inductive Stmt where
  | block (body : List Stmt) (pos : Position)
  | ifElse (condition : Expr) (whenTrue : Stmt) (whenFalse : Option Stmt) (pos : Position)
  | switch (subject : Expr) (sections : List Section) (pos : Position)
  | whileLoop (condition : Expr) (body : Stmt) (pos : Position)
  | forLoop (init condition step : Option Expr) (body : Stmt) (pos : Position)
  | breakLoop (pos : Position)
  | continueLoop (pos : Position)
  | returnValue (value : Option Expr) (pos : Position)
  | expr (e : Expr)
  | declare (decl : FnDecl)
/-- A section of a `switch` statement: its labels and the statements up to the next label. -/
inductive Section where
  | mk (labels : List Label) (body : List Stmt)
inductive FnDecl where
  | mk (name : String) (params : List Param) (body : List Stmt) (pos : Position)
end

namespace Section

def labels : Section → List Label
  | mk labels _ => labels

def body : Section → List Stmt
  | mk _ body => body

end Section

namespace FnDecl

def name : FnDecl → String
  | mk name _ _ _ => name

def params : FnDecl → List Param
  | mk _ params _ _ => params

def body : FnDecl → List Stmt
  | mk _ _ body _ => body

def pos : FnDecl → Position
  | mk _ _ _ pos => pos

end FnDecl

abbrev Program := List Stmt

end Scriptlet
