import Scriptlet.Store

/-!
# The standard library, in four namespaces

A namespace exports constants and native functions.  Installing it in an environment creates its
functions anew, so two installations share none.

The four namespaces, their names and their parameters are those of §10.6 of the specification.
-/

namespace Scriptlet

/-- What a namespace gives under a name. -/
inductive Export where
  | constant (v : Value)
  | function (f : Function)

namespace Export

def native (name : String) (params : List String) (code : Native) : String × Export :=
  (name, .function ⟨name, params.map (⟨·, none⟩), .native code false⟩)

/-- The value of an export in a store, where a function is new. -/
def realize (e : Export) (σ : Store) : Value × Store :=
  match e with
  | constant v => (v, σ)
  | function f =>
    let (id, τ) := σ.newFunction f
    (.function id, τ)

end Export

inductive Namespace where
  | core | math | array | func
  deriving DecidableEq, Repr

namespace Namespace

def all : List Namespace := [core, math, array, func]

def name : Namespace → String
  | core => "core"
  | math => "math"
  | array => "array"
  | func => "func"

def ofName? (s : String) : Option Namespace := all.find? (·.name = s)

def pi : Float := Float.ofBits 0x400921FB54442D18

def exports : Namespace → List (String × Export)
  | core =>
    [("NaN", .constant (.float Binary64.nan)),
     ("Inf", .constant (.float (Binary64.infinity false))),
     Export.native "len" ["value"] .len,
     Export.native "type" ["value"] .type,
     Export.native "int" ["value"] .int,
     Export.native "float" ["value"] .float,
     Export.native "str" ["value"] .str,
     Export.native "bool" ["value"] .bool,
     Export.native "isNaN" ["value"] .isNaN,
     Export.native "isInf" ["value"] .isInf]
  | math =>
    [("PI", .constant (.float pi)),
     Export.native "abs" ["x"] .abs,
     Export.native "min" ["a", "b"] .min,
     Export.native "max" ["a", "b"] .max,
     Export.native "clamp" ["x", "lo", "hi"] .clamp,
     Export.native "floor" ["x"] .floor,
     Export.native "ceil" ["x"] .ceil,
     Export.native "round" ["x"] .round,
     Export.native "sqrt" ["x"] .sqrt,
     Export.native "pow" ["base", "exp"] .pow]
  | array =>
    [Export.native "push" ["array", "value"] .push,
     Export.native "pop" ["array"] .pop,
     ("join", .function ⟨"join", [⟨"array", none⟩, ⟨"separator", some (.value (.str ","))⟩],
       .native .join false⟩),
     Export.native "copy" ["value"] .copy]
  | func =>
    [Export.native "partial" ["f", "value"] .bindFirst,
     Export.native "compose" ["f", "g"] .compose]

def export? (ns : Namespace) (name : String) : Option Export := ns.exports.lookup name

end Namespace

abbrev Registry := List Namespace

namespace Registry

def standard : Registry := Namespace.all

def find? (r : Registry) (name : String) : Option Namespace := List.find? (·.name = name) r

/-- Defines exports in an environment; of two with one name the later one stays. -/
def define (env : Env) (exports : List (String × Export)) (σ : Store) : Store :=
  exports.foldl (fun σ (name, e) =>
    let (v, τ) := e.realize σ
    τ.define env name v) σ

def install (r : Registry) (env : Env) (σ : Store) : Store :=
  define env (r.flatMap Namespace.exports) σ

end Registry

/-- A new outermost scope, which holds the standard library unless it is left out. -/
def Store.newRoot (σ : Store) (bare : Bool) : Env × Store :=
  let (env, τ) := σ.newScope []
  (env, if bare then τ else Registry.standard.install env τ)

end Scriptlet
