import Scriptlet.Proofs.ArgumentBinding
import Scriptlet.Proofs.Endings
import Scriptlet.SampleHost

/-!
# A function with its first argument fixed

A function that is applied to a value passes it on under the name of the first parameter, in front
of the arguments of the call.  What it was made of may itself be applied to a value, or be the inner
part of a composite, so the call that runs in the end has names on its first few arguments, one for
each value that was fixed on the way.  These are the names of the first parameters in their order,
also where names repeat, and then a call with names matches its arguments as one without
(`Argument.bind_labelled`).  So every function that was put together by the means of the language
takes such a call as it takes the same values by position (`Eval.invoke_labelled`).

Fixing the first argument is `Partial` of §4.5 of the specification, and composites are its
`Composite`.
-/

namespace Scriptlet

/-! ## 1. Names in front of a call

A parameter takes the first argument with its name, so repeated names are taken in their order. -/

namespace Argument

/-- Arguments of which the first ones carry the names of a list, as far as it goes. -/
def labelled : List String → List Value → List Argument
  | x :: names, v :: vs => ⟨some x, v⟩ :: labelled names vs
  | _, vs => vs.map positional

theorem labelled_nil (vs : List Value) : labelled [] vs = vs.map positional := by
  cases vs <;> rfl

theorem values_positional (vs : List Value) : (vs.map positional).map (·.value) = vs := by
  rw [List.map_map]
  exact List.map_id vs

/-- Names do not change which values are passed. -/
theorem values_labelled (names : List String) (vs : List Value) :
    (labelled names vs).map (·.value) = vs := by
  induction names generalizing vs with
  | nil => rw [labelled_nil, values_positional]
  | cons x names ih =>
    cases vs with
    | nil => rfl
    | cons v vs => exact congrArg (v :: ·) (ih vs)

/-- A parameter whose name stands first takes the first argument. -/
theorem bindByName_named_cons (p : String) (ps : List String) (v : Value) (args : List Argument) :
    bindByName (p :: ps) (⟨some p, v⟩ :: args) = some v :: bindByName ps args := by
  have hfirst : takeFirst? (·.name = some p) (⟨some p, v⟩ :: args) = some (v, args) := by
    simp [takeFirst?]
  simp only [bindByName, bindNamed, hfirst, bindLeft]

/-- Names that stand in front of a call and follow the parameters leave the matching as it is
without them. -/
theorem bind_labelled {params names : List String} (h : names <+: params) (vs : List Value) :
    bind params (labelled names vs) = bind params (vs.map positional) := by
  have hunnamed : ∀ us : List Value, ∀ a ∈ us.map positional, a.name = none := by
    intro us a ha
    obtain ⟨v, -, rfl⟩ := List.mem_map.1 ha
    rfl
  rw [bind_eq_bindByName, bind_eq_bindByName, bindByName_of_unnamed (hunnamed vs)]
  induction names generalizing params vs with
  | nil => rw [labelled_nil, bindByName_of_unnamed (hunnamed vs)]
  | cons x names ih =>
    obtain ⟨ps, rfl⟩ : ∃ ps, params = x :: ps := by
      obtain ⟨rest, rfl⟩ := h
      exact ⟨names ++ rest, rfl⟩
    cases vs with
    | nil => exact bindByName_of_unnamed (hunnamed []) _
    | cons v vs =>
      -- The first parameter has the first name, so it takes the first value and leaves the others
      -- to the rest.
      have hrest := ih (List.cons_prefix_cons.1 h).2 vs
      rw [labelled, bindByName_named_cons, hrest]
      rfl

end Argument

/-! ## 2. Functions that are put together -/

/-- A function that was put together in a store: native code, a declaration, or made of functions
that were put together before.  It has the parameters that its making gives it; native code that
takes any number of arguments has none. -/
inductive Store.Assembled (σ : Store) : FunctionId → Prop
  | native {f : FunctionId} {name : String} {params : List Parameter} {code : Native} :
      σ.functions[f.index]? = some ⟨name, params, .native code false⟩ → Assembled σ f
  | variadic {f : FunctionId} {name : String} {code : Native} :
      σ.functions[f.index]? = some ⟨name, [], .native code true⟩ → Assembled σ f
  | script {f : FunctionId} {name : String} {params : List Parameter} {statements : List Stmt}
      {closure : Env} :
      σ.functions[f.index]? = some ⟨name, params, .script statements closure⟩ → Assembled σ f
  | composite {f outer inner : FunctionId} {name : String} :
      σ.functions[f.index]? = some ⟨name, (σ.function inner).params, .composite outer inner⟩ →
      Assembled σ outer → Assembled σ inner → Assembled σ f
  | applied {f target : FunctionId} {name : String} {v : Value} :
      σ.functions[f.index]? = some ⟨name, (σ.function target).params.drop 1, .applied target v⟩ →
      Assembled σ target → Assembled σ f

namespace Store

variable {σ : Store} {f g : FunctionId}

theorem function_eq {fn : Function} (h : σ.functions[f.index]? = some fn) : σ.function f = fn := by
  rw [function, h, Option.getD_some]

/-- Functions are never replaced. -/
theorem getElem?_newFunction {fn : Function} (h : σ.functions[f.index]? = some fn)
    (new : Function) :
    (σ.newFunction new).2.functions[f.index]? = some fn := by
  obtain ⟨hlt, rfl⟩ := Array.getElem?_eq_some_iff.1 h
  exact Array.getElem?_push_lt hlt

theorem Assembled.exists_function (h : σ.Assembled f) : ∃ fn, σ.functions[f.index]? = some fn := by
  cases h with
  | native h | variadic h | script h | composite h _ _ | applied h _ => exact ⟨_, h⟩

theorem Assembled.function_newFunction (h : σ.Assembled f) (new : Function) :
    (σ.newFunction new).2.function f = σ.function f := by
  obtain ⟨fn, hfn⟩ := h.exists_function
  rw [function_eq hfn, function_eq (getElem?_newFunction hfn new)]

/-- What was put together stays so when there are more functions. -/
theorem Assembled.newFunction (h : σ.Assembled f) (new : Function) :
    (σ.newFunction new).2.Assembled f := by
  induction h with
  | native h => exact .native (getElem?_newFunction h new)
  | variadic h => exact .variadic (getElem?_newFunction h new)
  | script h => exact .script (getElem?_newFunction h new)
  | composite h _ hinner ihouter ihinner =>
    rw [← hinner.function_newFunction new] at h
    exact .composite (getElem?_newFunction h new) ihouter ihinner
  | applied h htarget ih =>
    rw [← htarget.function_newFunction new] at h
    exact .applied (getElem?_newFunction h new) ih

theorem getElem?_newFunction_self (new : Function) :
    (σ.newFunction new).2.functions[(σ.newFunction new).1.index]? = some new :=
  Array.getElem?_push_size

/-- Fixing the first argument of a function that is put together puts one together. -/
theorem Assembled.newApplied (h : σ.Assembled f) (v : Value) :
    (σ.newApplied f v).2.Assembled (σ.newApplied f v).1 := by
  have hkept : (σ.newApplied f v).2.function f = σ.function f := h.function_newFunction _
  have hnew : (σ.newApplied f v).2.functions[(σ.newApplied f v).1.index]? =
      some ⟨(σ.function f).name, ((σ.newApplied f v).2.function f).params.drop 1,
        .applied f v⟩ := by
    rw [hkept]
    exact getElem?_newFunction_self _
  exact .applied hnew (h.newFunction _)

/-- And so does composing two of them. -/
theorem Assembled.newComposite (hf : σ.Assembled f) (hg : σ.Assembled g) :
    (σ.newComposite f g).2.Assembled (σ.newComposite f g).1 := by
  have hkept : (σ.newComposite f g).2.function g = σ.function g := hg.function_newFunction _
  have hnew : (σ.newComposite f g).2.functions[(σ.newComposite f g).1.index]? =
      some ⟨s!"{(σ.function f).name}.{(σ.function g).name}",
        ((σ.newComposite f g).2.function g).params, .composite f g⟩ := by
    rw [hkept]
    exact getElem?_newFunction_self _
  exact .composite hnew (hf.newFunction _) (hg.newFunction _)

end Store

/-! ## 3. Calls

One equation for each body that a function can have. -/

namespace Eval

section Calls

variable {σ : Store} {n : Nat} {f outer inner target : FunctionId} {args : List Argument}
  {name : String} {params : List Parameter} {v : Value}

theorem view_function {fn : Function} (h : σ.function f = fn) :
    view (·.function f) σ = .done fn σ :=
  congrArg (Outcome.done · σ) h

/-- A name for the first argument of a call is in front of names for the others as a parameter is in
front of others. -/
theorem labelled_cons {names : List String} (h : names <+: (params.drop 1).map (·.name))
    (vs : List Value) :
    ∃ names', names' <+: params.map (·.name) ∧
      ⟨params.head?.map (·.name), v⟩ :: Argument.labelled names vs =
        Argument.labelled names' (v :: vs) := by
  cases params with
  | nil =>
    obtain rfl := List.prefix_nil.1 h
    exact ⟨[], List.nil_prefix, congrArg (.positional v :: ·) (Argument.labelled_nil vs)⟩
  | cons p ps => exact ⟨p.name :: names, List.cons_prefix_cons.2 ⟨rfl, h⟩, rfl⟩

/-- The first name of all, in front of arguments by position. -/
theorem labelled_cons_positional (params : List Parameter) (v : Value) (vs : List Value) :
    ∃ names, names <+: params.map (·.name) ∧
      ⟨params.head?.map (·.name), v⟩ :: vs.map .positional = Argument.labelled names (v :: vs) := by
  rw [← Argument.labelled_nil]
  exact labelled_cons List.nil_prefix vs

variable [Host]

theorem invoke_native {code : Native} (h : σ.function f = ⟨name, params, .native code false⟩) :
    invoke (n + 1) f args σ = Native.run (invoke n) n code
      (List.zipWith Parameter.valueOr params (Argument.bind (params.map (·.name)) args)) σ :=
  bind_of_done (view_function h)

theorem invoke_variadic {code : Native} (h : σ.function f = ⟨name, params, .native code true⟩) :
    invoke (n + 1) f args σ = Native.run (invoke n) n code (args.map (·.value)) σ :=
  bind_of_done (view_function h)

theorem invoke_script {statements : List Stmt} {closure : Env}
    (h : σ.function f = ⟨name, params, .script statements closure⟩) :
    invoke (n + 1) f args σ = (do
      let env ← fresh (·.enter closure)
      Parameter.bindAll (eval n env) env params (Argument.bind (params.map (·.name)) args)
      return (← Flow.sequence (exec n env) .invalid statements).value : Eval Value) σ :=
  bind_of_done (view_function h)

theorem invoke_composite (h : σ.function f = ⟨name, params, .composite outer inner⟩) :
    invoke (n + 1) f args σ = (invoke n inner args >>= fun v => invoke n outer [.positional v]) σ :=
  bind_of_done (view_function h)

/-- The fixed value is passed under the name of the first parameter. -/
theorem invoke_applied (h : σ.function f = ⟨name, params, .applied target v⟩) :
    invoke (n + 1) f args σ =
      invoke n target (⟨(σ.function target).params.head?.map (·.name), v⟩ :: args) σ :=
  (bind_of_done (view_function h)).trans (bind_of_done rfl)

/-- A function that is put together takes a call whose first arguments have the names of its
parameters as it takes the same values by position. -/
theorem invoke_labelled (hf : σ.Assembled f) : ∀ (n : Nat) {names : List String} (vs : List Value),
    names <+: (σ.function f).params.map (·.name) →
      invoke n f (Argument.labelled names vs) σ = invoke n f (vs.map .positional) σ := by
  -- A composite and an applied function call what they are made of in the store of the call, with
  -- less fuel.
  induction hf with
  | @native f name params code h =>
    intro n names vs hnames
    have hfn := Store.function_eq h
    cases n with
    | zero => rfl
    | succ n =>
      rw [hfn] at hnames
      rw [invoke_native hfn, invoke_native hfn, Argument.bind_labelled hnames]
  | @variadic f name code h =>
    intro n names vs _
    have hfn := Store.function_eq h
    cases n with
    | zero => rfl
    | succ n =>
      rw [invoke_variadic hfn, invoke_variadic hfn, Argument.values_labelled,
        Argument.values_positional]
  | @script f name params statements closure h =>
    intro n names vs hnames
    have hfn := Store.function_eq h
    cases n with
    | zero => rfl
    | succ n =>
      rw [hfn] at hnames
      rw [invoke_script hfn, invoke_script hfn, Argument.bind_labelled hnames]
  | @composite f outer inner name h _ _ _ ih =>
    intro n names vs hnames
    have hfn := Store.function_eq h
    cases n with
    | zero => rfl
    | succ n =>
      rw [hfn] at hnames
      rw [invoke_composite hfn, invoke_composite hfn]
      simp only [Bind.bind, ih n vs hnames]
  | @applied f target name v h _ ih =>
    intro n names vs hnames
    have hfn := Store.function_eq h
    cases n with
    | zero => rfl
    | succ n =>
      rw [hfn] at hnames
      obtain ⟨names₁, hnames₁, hargs₁⟩ := labelled_cons (v := v) hnames vs
      obtain ⟨names₂, hnames₂, hargs₂⟩ := labelled_cons_positional (σ.function target).params v vs
      rw [invoke_applied hfn, invoke_applied hfn, hargs₁, hargs₂, ih n _ hnames₁, ih n _ hnames₂]

/-- A call of an applied function is the call of what it was made of, with one more argument. -/
theorem invoke_applied_positional {g : FunctionId} (hf : σ.Assembled f) {name : String}
    {params : List Parameter} (hg : σ.function g = ⟨name, params, .applied f v⟩) (n : Nat)
    (xs : List Value) :
    invoke (n + 1) g (xs.map .positional) σ = invoke n f ((v :: xs).map .positional) σ := by
  obtain ⟨names, hnames, hargs⟩ := labelled_cons_positional (σ.function f).params v xs
  rw [invoke_applied hg, hargs, invoke_labelled hf n _ hnames]

/-- Calls that differ by a unit of fuel end alike. -/
theorem sameEndings_applied {g : FunctionId} (hf : σ.Assembled f) {name : String}
    {params : List Parameter} (hg : σ.function g = ⟨name, params, .applied f v⟩) (xs : List Value) :
    SameEndings (invoke · g (xs.map .positional)) (invoke · f ((v :: xs).map .positional)) σ :=
  sameEndings_of_succ rfl fun n => invoke_applied_positional hf hg n xs

/-- Calling a function with its first argument fixed is calling the function with that argument in
front: in every state in which such a function is there, and in the one in which it has just been
made. -/
theorem applied_call_is_call (σ : Store) {f : FunctionId} (hf : σ.Assembled f) (v : Value)
    (xs : List Value) :
    (∀ g name params, σ.function g = ⟨name, params, .applied f v⟩ →
      SameEndings (invoke · g (xs.map .positional)) (invoke · f ((v :: xs).map .positional)) σ) ∧
    SameEndings (invoke · (σ.newApplied f v).1 (xs.map .positional))
      (invoke · f ((v :: xs).map .positional)) (σ.newApplied f v).2 := by
  constructor
  · intro g name params hg
    exact sameEndings_applied hf hg xs
  · exact sameEndings_applied (hf.newFunction _)
      (Store.function_eq (Store.getElem?_newFunction_self _)) xs

end Calls

def limiters : Store where
  arrays := #[]
  scopes := #[]
  functions :=
    #[⟨"clamp", [⟨"x", none⟩, ⟨"lo", none⟩, ⟨"x", some (.value (.int 0))⟩], .native .clamp false⟩,
    ⟨"abs", [⟨"x", none⟩], .native .abs false⟩,
    ⟨"abs.clamp", [⟨"x", none⟩, ⟨"lo", none⟩, ⟨"x", some (.value (.int 0))⟩], .composite ⟨1⟩ ⟨0⟩⟩,
    ⟨"abs.clamp", [⟨"lo", none⟩, ⟨"x", some (.value (.int 0))⟩], .applied ⟨2⟩ (.int (-7))⟩]

/-- The function has three values fixed or passed in the end, two of them for parameters of the same
name. -/
theorem limiters_call :
    limiters.Assembled ⟨3⟩ ∧
    (∃ τ, invoke 9 ⟨3⟩ ([.int (-5), .int 3].map .positional)
      (limiters.newApplied ⟨3⟩ (.int (-5))).2 = .done (.int 5) τ) ∧
    SameEndings (invoke · ⟨4⟩ ([.int 3].map .positional))
      (invoke · ⟨3⟩ ([.int (-5), .int 3].map .positional))
        (limiters.newApplied ⟨3⟩ (.int (-5))).2 := by
  let natives : Store := ⟨#[], #[], limiters.functions.take 2⟩
  have hclamp : natives.Assembled ⟨0⟩ := .native rfl
  have habs : natives.Assembled ⟨1⟩ := .native rfl
  have hboth : (natives.newComposite ⟨1⟩ ⟨0⟩).2.Assembled ⟨2⟩ := habs.newComposite hclamp
  have hlimited : limiters.Assembled ⟨3⟩ := hboth.newApplied (.int (-7))
  exact ⟨hlimited, ⟨_, rfl⟩, (applied_call_is_call limiters hlimited (.int (-5)) [.int 3]).2⟩

end Eval
end Scriptlet
