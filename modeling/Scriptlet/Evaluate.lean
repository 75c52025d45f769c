import Scriptlet.Native

/-!
# Evaluation of expressions and execution of statements

An expression gives a value, or the location it names if it is assigned to.  A statement gives a
value and a signal that says how control goes on.  All list walks, loops and section searches take
the evaluation of their parts as a parameter, and four functions tie them together: `eval`,
`locate`, `exec` and `invoke`.  Their fuel decreases in every call.

The module follows §4.8 of the specification (`Executor`).  Blocks and calls have scopes of their
own, as §4.4 and §10.7 say.
-/

namespace Scriptlet

/-! ## 1. Control flow -/

inductive Signal where
  | normal
  | returning
  | breaking
  | continuing
  deriving DecidableEq, Repr

structure Flow where
  value : Value
  signal : Signal
  deriving DecidableEq

namespace Flow
open Eval

/-- Runs statements in order up to the first one that does not end normally. -/
def sequence (exec : Stmt → Eval Flow) (last : Value) : List Stmt → Eval Flow
  | [] => return ⟨last, .normal⟩
  | s :: rest => do
    let flow ← exec s
    match flow.signal with
    | .normal => sequence exec flow.value rest
    | _ => return flow

/-- Runs a body while a test succeeds, and a step after each time.  A break ends the loop
normally. -/
def loop (test : Eval Bool) (body : Eval Flow) (step : Eval Unit) :
    (fuel : Nat) → (last : Value) → Eval Flow
  | 0, _ => exhausted
  | n + 1, last => do
    if ← test then do
      let flow ← body
      match flow.signal with
      | .returning => return flow
      | .breaking => return ⟨flow.value, .normal⟩
      | _ => do
        step
        loop test body step n flow.value
    else return ⟨last, .normal⟩

/-- Tests the cases among the labels of a section in order, up to the first that matches. -/
def anyCase (test : Expr → Eval Bool) : List Label → Eval Bool
  | [] => return false
  | .default :: ls => anyCase test ls
  | .case e :: ls => do
    if ← test e then return true else anyCase test ls

def isDefault : Label → Bool
  | .default => true
  | .case _ => false

/-- The sections from the first one with a matching case on.  Without a match these are the
sections of `fallback`, or those from the first default on. -/
def select (test : Expr → Eval Bool) : (fallback : Option (List Section)) → List Section →
    Eval (List Section)
  | fallback, [] => return fallback.getD []
  | fallback, s :: rest => do
    if ← anyCase test s.labels then return s :: rest
    else if s.labels.any isDefault then select test (fallback.or (some (s :: rest))) rest
    else select test fallback rest

/-- Runs sections one after the other.  A break ends them normally. -/
def runSections (run : List Stmt → Eval Flow) (last : Value) : List Section → Eval Flow
  | [] => return ⟨last, .normal⟩
  | s :: rest => do
    let flow ← run s.body
    match flow.signal with
    | .normal => runSections run flow.value rest
    | .breaking => return ⟨flow.value, .normal⟩
    | _ => return flow

end Flow

/-! ## 2. Parameters -/

namespace Parameter
open Eval

def valueOr (p : Parameter) : Option Value → Value
  | some v => v
  | none =>
    match p.default with
    | some (.value v) => v
    | _ => .invalid

/-- Binds parameters in an environment, in order; a parameter that got nothing takes its default. -/
def bindAll (eval : Expr → Eval Value) (env : Env) :
    List Parameter → List (Option Value) → Eval Unit
  | p :: ps, slot :: slots => do
    let v ← match slot, p.default with
      | some v, _ => pure v
      | none, some (.expr e) => eval e
      | none, some (.value v) => pure v
      | none, none => pure .invalid
    alter (·.define env p.name v)
    bindAll eval env ps slots
  | _, _ => return ()

end Parameter

/-! ## 3. Expressions, statements and calls -/

/-- The name by which an error message calls a callee. -/
def Expr.calleeName? : Expr → Option String
  | .var name _ => some name
  | _ => none

namespace Eval

def partText (fuel : Nat) (eval : Expr → Eval Value) : Part → Eval String
  | .text t => return t
  | .expr e => do
    let v ← eval e
    look (·.display fuel v)

def arguments (eval : Expr → Eval Value) (args : List Arg) : Eval (List Argument) :=
  forEach (fun | .mk name e => do return ⟨name, ← eval e⟩) args

/-- Steps the location of an operand; gives the old and the new value. -/
def stepLocation (fuel : Nat) (op : StepOp) (line : Nat) (target : Reference) :
    Eval (Value × Value) := do
  let old ← look (·.read fuel target)
  let new ← look (·.step fuel op old)
  placedAt line (write fuel target new)
  return (old, new)

variable [Host]

mutual
/-- The value of an expression (`Executor` of §4.8; references are those of §4.6). -/
def eval (fuel : Nat) (env : Env) (e : Expr) : Eval Value :=
  match fuel with
  | 0 => exhausted
  | n + 1 =>
    match e with
    | .bool b _ => return .bool b
    | .int k _ => return .int k
    | .float x _ => return .float x
    | .str s _ => return .str s
    | .interpolation parts _ =>
      return .str (String.join (← forEach (partText n (eval n env)) parts))
    | .list items _ => do
      let vs ← forEach (eval n env) items
      return .array (← fresh (·.newArray vs.toArray))
    | .var name _ => look fun σ => σ.resolve n ((σ.lookup env name).getD .invalid)
    | .unary .plus e _ => do
      let v ← eval n env e
      look (·.plus n v)
    | .unary .neg e _ => do
      let v ← eval n env e
      look (·.neg n v)
    | .unary .not e _ => do
      let v ← eval n env e
      look (·.not n v)
    | .unary .bitNot e _ => do
      let v ← eval n env e
      look (·.bitNot n v)
    | .unary (.step op) e pos => do
      let target ← locate n env e
      return (← stepLocation n op pos.line target).2
    | .unary .ref e _ => do
      match ← locate n env e with
      | .direct v => return v
      | r => return .reference r
    | .trailing op e pos => do
      let target ← locate n env e
      return (← stepLocation n op pos.line target).1
    -- The right operand is evaluated only if the left one does not decide.
    | .binary .and l r _ => do
      let v ← eval n env l
      if ← look (·.toBool n v) then do
        let w ← eval n env r
        return .bool (← look (·.toBool n w))
      else return .bool false
    | .binary .or l r _ => do
      let v ← eval n env l
      if ← look (·.toBool n v) then return .bool true
      else do
        let w ← eval n env r
        return .bool (← look (·.toBool n w))
    | .binary .assign l r pos => do
      let target ← locate n env l
      let v ← eval n env r
      placedAt pos.line (write n target v)
      return v
    -- The old value is read before the right operand is evaluated, which may change it.
    | .binary (.update op) l r pos => do
      let target ← locate n env l
      let current ← look (·.read n target)
      let w ← eval n env r
      let v ← look (·.arith n op current w)
      placedAt pos.line (write n target v)
      return v
    | .binary op l r _ => do
      let v ← eval n env l
      let w ← eval n env r
      look (·.binary n op v w)
    | .ternary c t f _ => do
      let v ← eval n env c
      if ← look (·.toBool n v) then eval n env t else eval n env f
    -- The callee is tested before the arguments are evaluated.
    | .call callee args pos => do
      match ← eval n env callee with
      | .function f => do
        let vs ← arguments (eval n env) args
        placedAt pos.line (invoke n f vs)
      | _ => failAt pos.line (.notCallable callee.calleeName?)
    | .subscript target index _ => do
      let v ← eval n env target
      let i ← eval n env index
      look (·.subscript n v i)

/-- The location that an expression names; an expression that names none gives its value. -/
def locate (fuel : Nat) (env : Env) (e : Expr) : Eval Reference :=
  match fuel with
  | 0 => exhausted
  | n + 1 =>
    match e with
    | .var name _ => return .binding env name
    | .subscript target index _ => do
      let base ← locate n env target
      let i ← eval n env index
      return .element base i
    | .ternary c t f _ => do
      let v ← eval n env c
      if ← look (·.toBool n v) then locate n env t else locate n env f
    | e => return .direct (← eval n env e)

/-- Executes a statement (`Exec` of §4.8). -/
def exec (fuel : Nat) (env : Env) (s : Stmt) : Eval Flow :=
  match fuel with
  | 0 => exhausted
  | n + 1 =>
    match s with
    | .block body _ => do
      let inner ← fresh (·.enter env)
      Flow.sequence (exec n inner) .invalid body
    | .ifElse c t f _ => do
      let v ← eval n env c
      if ← look (·.toBool n v) then exec n env t
      else match f with
        | some s => exec n env s
        | none => return ⟨.invalid, .normal⟩
    | .switch subject sections _ => do
      let v ← eval n env subject
      let chosen ← Flow.select (fun e => do
        let w ← eval n env e
        look (·.looseEq n w v)) none sections
      Flow.runSections (Flow.sequence (exec n env) .invalid) .invalid chosen
    | .whileLoop c body _ =>
      Flow.loop (do
        let v ← eval n env c
        look (·.toBool n v)) (exec n env body) (pure ()) n .invalid
    | .forLoop init c step body _ => do
      if let some e := init then
        let _ ← eval n env e
      Flow.loop (match c with
        | some e => do
          let v ← eval n env e
          look (·.toBool n v)
        | none => pure true) (exec n env body) (match step with
        | some e => do
          let _ ← eval n env e
        | none => pure ()) n .invalid
    | .breakLoop _ => return ⟨.invalid, .breaking⟩
    | .continueLoop _ => return ⟨.invalid, .continuing⟩
    | .returnValue none _ => return ⟨.invalid, .returning⟩
    | .returnValue (some e) _ => return ⟨← eval n env e, .returning⟩
    | .expr e => return ⟨← eval n env e, .normal⟩
    -- The function closes over the scope it is declared in and not over a copy of it, so its body
    -- can call it by its name.
    | .declare decl => do
      let f ← fresh (·.newFunction (.ofDecl decl env))
      alter (·.define env decl.name (.function f))
      return ⟨.function f, .normal⟩

/-- Calls a function (`Invoke` of §4.5). -/
def invoke (fuel : Nat) (f : FunctionId) (args : List Argument) : Eval Value :=
  match fuel with
  | 0 => exhausted
  | n + 1 => do
    let fn ← view (·.function f)
    let slots := Argument.bind (fn.params.map (·.name)) args
    match fn.body with
    | .native code true => Native.run (invoke n) n code (args.map (·.value))
    | .native code false =>
      Native.run (invoke n) n code (List.zipWith Parameter.valueOr fn.params slots)
    -- Defaults are evaluated in the scope of the call, where the parameters before them are bound.
    | .script statements closure => do
      let env ← fresh (·.enter closure)
      Parameter.bindAll (eval n env) env fn.params slots
      return (← Flow.sequence (exec n env) .invalid statements).value
    | .composite outer inner => do
      let v ← invoke n inner args
      invoke n outer [.positional v]
    -- The bound argument is passed by name, so that named arguments are matched with the parameters
    -- that are left.
    | .applied target bound => do
      let first ← view fun σ => (σ.function target).params.head?.map (·.name)
      invoke n target (⟨first, bound⟩ :: args)
end

/-- Runs statements as a whole: the value of the last one, or of the one that ends them. -/
def execProgram (fuel : Nat) (env : Env) (program : Program) : Eval Value := do
  return (← Flow.sequence (exec fuel env) .invalid program).value

end Eval
end Scriptlet
