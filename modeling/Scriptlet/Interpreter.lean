import Scriptlet.Evaluate
import Scriptlet.Namespace
import Scriptlet.Stmt.Parse
import Scriptlet.Text.Quoted
import Scriptlet.Token.Scan

/-!
# Interpreters: what a host works with

An interpreter runs source texts in an environment.  It remembers the tokens of the last text and
the last tree, and notifies the hooks that a host has registered of results and errors.  An error
that a hook is told about counts as handled.

These are the interfaces of §6 of the specification, with the caches, the isolated runs, the
stabilised results and the hooks of §10.6.
-/

namespace Scriptlet

/-! ## 1. Hooks -/

inductive Hook where
  /-- The result of each run. -/
  | result
  /-- The result as a word, a float, a truth value or a text. -/
  | int | float | bool | string
  | syntaxError
  | runtimeError
  /-- Any error that no other hook is told about. -/
  | anyError
  deriving DecidableEq, Repr

inductive Notice where
  | result (v : Value)
  | int (n : Int64)
  | float (x : Float)
  | bool (b : Bool)
  | string (s : String)
  | syntaxError (e : SyntaxError)
  | runtimeError (e : RuntimeError)
  | anyError (e : RunError)
  deriving DecidableEq

namespace Hook

def onResult (fuel : Nat) (σ : Store) (v : Value) : Hook → Option (List Notice)
  | result => some [.result v]
  | int => (σ.toInt fuel v).map ([.int ·])
  | float => (σ.toFloat fuel v).map ([.float ·])
  | bool => (σ.toBool fuel v).map ([.bool ·])
  | string => (σ.display fuel v).map ([.string ·])
  | _ => some []

def onOwnError (e : RunError) : Hook → List Notice
  | syntaxError =>
    match e with
    | .ofSyntax s => [.syntaxError s]
    | .ofRuntime _ => []
  | runtimeError =>
    match e with
    | .ofRuntime r => [.runtimeError r]
    | .ofSyntax _ => []
  | _ => []

def onAnyError (e : RunError) : Hook → List Notice
  | anyError => [.anyError e]
  | _ => []

/-- What the hooks are told about an error: those for its kind, or else those for any error. -/
def onError (hooks : List Hook) (e : RunError) : List Notice :=
  match hooks.flatMap (onOwnError e) with
  | [] => hooks.flatMap (onAnyError e)
  | notices => notices

end Hook

/-! ## 2. Interpreters -/

/-- Something that was made once and is told apart from an equal thing made later. -/
structure Stamped (α : Type) where
  stamp : Nat
  content : α
  deriving Repr

/-- An interpreter.  The caches hold the last source text with its tokens, and the last tree with
the stamp of the tokens that it was parsed from. -/
structure Interpreter where
  env : Env
  tokenCache : Option (String × Stamped (List Token))
  treeCache : Option (Nat × Stamped Program)
  nextStamp : Nat
  hooks : List Hook

namespace Interpreter

def ofEnv (env : Env) : Interpreter := ⟨env, none, none, 0, []⟩

def register (i : Interpreter) (hook : Hook) : Interpreter := { i with hooks := i.hooks ++ [hook] }

/-- The tokens of a source text; those of the last text are kept. -/
def tokenize (i : Interpreter) (source : String) :
    Except SyntaxError (Stamped (List Token)) × Interpreter :=
  let scanned : Except SyntaxError (Stamped (List Token)) × Interpreter :=
    match Token.scan source with
    -- A refused text leaves the caches as they are.
    | .error e => (.error e, i)
    | .ok tokens =>
      let made := ⟨i.nextStamp, tokens⟩
      (.ok made, { i with tokenCache := some (source, made), nextStamp := i.nextStamp + 1 })
  match i.tokenCache with
  | some (cached, tokens) => if cached = source then (.ok tokens, i) else scanned
  | none => scanned

/-- The tree of a list of tokens; that of the last list is kept. -/
def parseTokens (i : Interpreter) (tokens : Stamped (List Token)) :
    Option (Except SyntaxError (Stamped Program) × Interpreter) :=
  let parsed : Option (Except SyntaxError (Stamped Program) × Interpreter) :=
    match Program.parse tokens.content with
    | .error e => some (.error e, i)
    | .exhausted => none
    | .ok program _ =>
      let made := ⟨i.nextStamp, program⟩
      some (.ok made, { i with treeCache := some (tokens.stamp, made), nextStamp :=
        i.nextStamp + 1 })
  match i.treeCache with
  | some (stamp, tree) => if stamp = tokens.stamp then some (.ok tree, i) else parsed
  | none => parsed

def parse (i : Interpreter) (source : String) :
    Option (Except SyntaxError (Stamped Program) × Interpreter) :=
  match i.tokenize source with
  | (.error e, i) => some (.error e, i)
  | (.ok tokens, i) => i.parseTokens tokens

/-! ## 3. Runs -/

/-- The end of a run: its result or error, what the hooks were told, and the interpreter and store
after it. -/
structure RunReport where
  outcome : Except RunError Value
  notices : List Notice
  interpreter : Interpreter
  store : Store

/-- Reports an error to the hooks; the run has no value if one of them handles it. -/
def reportError (i : Interpreter) (e : RunError) (σ : Store) : RunReport :=
  match Hook.onError i.hooks e with
  | [] => ⟨.error e, [], i, σ⟩
  | notices => ⟨.ok .invalid, notices, i, σ⟩

def reportResult (fuel : Nat) (i : Interpreter) (v : Value) (σ : Store) : Option RunReport := do
  -- The host gets a copy, so that later runs cannot change the arrays it holds.
  let (w, τ) ← σ.copy fuel v
  let notices ← i.hooks.mapM (Hook.onResult fuel τ w)
  return ⟨.ok w, notices.flatten, i, τ⟩

variable [Host]

/-- Runs a source text in an environment: `Tokenize`, `Parse` and `Exec` in this order (§2). -/
def runIn (fuel : Nat) (i : Interpreter) (env : Env) (source : String) (σ : Store) :
    Option RunReport := do
  match ← i.parse source with
  | (.error e, i) => return i.reportError (.ofSyntax e) σ
  | (.ok tree, i) =>
    match Eval.execProgram fuel env tree.content σ with
    | .exhausted => none
    | .failed e τ => return i.reportError (.ofRuntime e) τ
    | .done v τ => reportResult fuel i v τ

/-- Runs a source text in the interpreter's environment (`run` of §6). -/
def run (fuel : Nat) (i : Interpreter) (source : String) (σ : Store) : Option RunReport :=
  runIn fuel i i.env source σ

/-- Runs a source text in a new scope right inside the outermost one (`run_isolated` of §10.6). -/
def runIsolated (fuel : Nat) (i : Interpreter) (source : String) (σ : Store) : Option RunReport :=
  let (env, τ) := σ.enter i.env.root
  runIn fuel i env source τ

/-- Runs a source text once, in an environment of its own with the standard library. -/
def runOnce (fuel : Nat) (source : String) (σ : Store) : Option RunReport :=
  let (env, τ) := σ.newRoot false
  run fuel (ofEnv env) source τ

end Interpreter

/-! ## 4. Descriptions for hosts -/

/-- The names bound in the innermost scope of an environment, and whether there is one around it. -/
def Store.describeEnv (σ : Store) (env : Env) : String :=
  let names := String.intercalate ", " ((σ.scope env.here).names.map Text.quoted)
  let nested := if env.outer.isEmpty then "false" else "true"
  "Environment \x7b names: [" ++ names ++ "], has_parent: " ++ nested ++ " \x7d"

def Function.describe (f : Function) : String := s!"Function({f.text})"

end Scriptlet
