import Scriptlet.Stmt
import Scriptlet.Value

/-!
# The store: everything that values share

A store holds the elements of every array, the bindings of every scope and the definition of every
function.  Nothing is ever removed from it, so an identifier stays valid.

Environments are those of §4.4 of the specification: an arena of scopes addressed by index, as its
§9 proposes.  That arrays are shared is §4.7.
-/

namespace Scriptlet

/-! ## 1. Scopes -/

/-- The bindings of one scope, at most one for each name. -/
structure Scope where
  bindings : List (String × Value)

namespace Scope

def empty : Scope := ⟨[]⟩

def find? (s : Scope) (name : String) : Option Value := s.bindings.lookup name

def contains (s : Scope) (name : String) : Bool := (s.find? name).isSome

/-- Binds a name, in place of any value it had. -/
def define (s : Scope) (name : String) (v : Value) : Scope :=
  if s.contains name then ⟨s.bindings.map fun b => if b.1 = name then (name, v) else b⟩
  else ⟨(name, v) :: s.bindings⟩

def remove (s : Scope) (name : String) : Scope :=
  ⟨s.bindings.filter fun b => b.1 ≠ name⟩

def sorted (s : Scope) : List (String × Value) :=
  s.bindings.mergeSort fun a b => a.1 ≤ b.1

def names (s : Scope) : List String := s.sorted.map (·.1)

end Scope

/-! ## 2. Functions -/

/-- What a parameter stands for if a call leaves it open. -/
inductive Default where
  /-- An expression, evaluated in the scope of the call. -/
  | expr (e : Expr)
  | value (v : Value)

structure Parameter where
  name : String
  default : Option Default

/-- The tag of a function that a host supplies: its name, and the line and the text that its code
was made with.  The tag says nothing about what the function computes, which is up to the host. -/
structure HostFunction where
  name : String
  line : Nat
  text : String
  deriving DecidableEq, Repr

/-- The code of functions that are not written in the language. -/
inductive Native where
  | len | type | int | float | str | bool | isNaN | isInf
  | abs | min | max | clamp | floor | ceil | round | sqrt | pow
  | push | pop | join | copy
  | bindFirst | compose
  | host (f : HostFunction)
  deriving DecidableEq, Repr

inductive Body where
  /-- Native code; variadic code gets every argument, any other one value for each parameter. -/
  | native (code : Native) (variadic : Bool)
  /-- Statements that run in a new scope inside the environment of their declaration. -/
  | script (statements : List Stmt) (closure : Env)
  /-- The outer function of the inner one's result. -/
  | composite (outer inner : FunctionId)
  /-- A function whose first parameter is fixed. -/
  | applied (target : FunctionId) (bound : Value)

structure Function where
  name : String
  params : List Parameter
  body : Body

namespace Function

/-- What an identifier that was never given out stands for: a function without a name. -/
def absent : Function := ⟨"", [], .native .type true⟩

/-- The text of a function: its name and its parameters. -/
def text (f : Function) : String :=
  let names := String.intercalate ", " (f.params.map (·.name))
  s!"fn {f.name}({names})"

def ofDecl (decl : FnDecl) (closure : Env) : Function :=
  { name := decl.name
    params := decl.params.map fun p => ⟨p.name, p.default.map .expr⟩
    body := .script decl.body closure }

end Function

/-! ## 3. Stores -/

/-- The contents of all arrays, scopes and functions. -/
structure Store where
  arrays : Array (Array Value)
  scopes : Array Scope
  functions : Array Function

namespace Store

def empty : Store := ⟨#[], #[], #[]⟩

/-! ### Arrays -/

def items (σ : Store) (a : ArrayId) : Array Value := σ.arrays[a.index]?.getD #[]

def newArray (σ : Store) (items : Array Value) : ArrayId × Store :=
  (⟨σ.arrays.size⟩, { σ with arrays := σ.arrays.push items })

def modifyArray (σ : Store) (a : ArrayId) (f : Array Value → Array Value) : Store :=
  { σ with arrays := σ.arrays.modify a.index f }

/-! ### Scopes -/

def scope (σ : Store) (s : ScopeId) : Scope := σ.scopes[s.index]?.getD .empty

/-- A new scope without bindings, inside the scopes of a list. -/
def newScope (σ : Store) (outer : List ScopeId) : Env × Store :=
  (⟨⟨σ.scopes.size⟩, outer⟩, { σ with scopes := σ.scopes.push .empty })

def enter (σ : Store) (env : Env) : Env × Store := σ.newScope env.chain

def modifyScope (σ : Store) (s : ScopeId) (f : Scope → Scope) : Store :=
  { σ with scopes := σ.scopes.modify s.index f }

/-- The innermost scope of a chain that binds a name. -/
def binder? (σ : Store) (chain : List ScopeId) (name : String) : Option ScopeId :=
  chain.find? fun s => (σ.scope s).contains name

/-- The value that a name has in an environment: the one in the innermost scope that binds it (`Get`
of §4.4). -/
def lookup (σ : Store) (env : Env) (name : String) : Option Value :=
  env.chain.findSome? fun s => (σ.scope s).find? name

def define (σ : Store) (env : Env) (name : String) (v : Value) : Store :=
  σ.modifyScope env.here (·.define name v)

/-- Rebinds a name in the innermost scope that binds it, if there is one (`TrySet` of §4.4). -/
def trySet (σ : Store) (env : Env) (name : String) (v : Value) : Option Store :=
  (σ.binder? env.chain name).map fun s => σ.modifyScope s (·.define name v)

/-- Rebinds a name where it is bound, or else binds it in the innermost scope (`Set` of §4.4). -/
def set (σ : Store) (env : Env) (name : String) (v : Value) : Store :=
  match σ.binder? env.chain name with
  | some s => σ.modifyScope s (·.define name v)
  | none => σ.define env name v

def remove (σ : Store) (env : Env) (name : String) : Store :=
  σ.modifyScope env.here (·.remove name)

/-! ### Functions -/

def function (σ : Store) (f : FunctionId) : Function := σ.functions[f.index]?.getD .absent

def newFunction (σ : Store) (f : Function) : FunctionId × Store :=
  (⟨σ.functions.size⟩, { σ with functions := σ.functions.push f })

def functionText (σ : Store) (f : FunctionId) : String :=
  (σ.function f).text

/-- The function whose first parameter is fixed to a value (`Partial` of §4.5). -/
def newApplied (σ : Store) (target : FunctionId) (bound : Value) : FunctionId × Store :=
  let f := σ.function target
  σ.newFunction ⟨f.name, f.params.drop 1, .applied target bound⟩

/-- The function that applies `outer` to the result of `inner` (`Composite` of §4.5). -/
def newComposite (σ : Store) (outer inner : FunctionId) : FunctionId × Store :=
  let f := σ.function outer
  let g := σ.function inner
  σ.newFunction ⟨s!"{f.name}.{g.name}", g.params, .composite outer inner⟩

end Store
end Scriptlet
