import Scriptlet.Proofs.PartialApplication
import Scriptlet.Proofs.SwitchSections
import Scriptlet.Proofs.WriteRead

/-!
# Where the signal of a statement comes from

A statement that does not end normally ends by a jump: a break, a continue or a return.  The jump
stands in the text of the statement itself, outside of the functions that are declared there and
outside of the loops and switches that take its signal, and the statement ends as the jump does:
with its value, and in the store in which it ends (`Eval.EndsByJump`).  The functions that the
statement calls are in the store and may be any, so none of their jumps is such a jump, not even if
the statement declares them.

One step of the evaluator hands on the flow of one of the statement's parts unchanged, or is the
jump itself (`Eval.exec_signal_cases`).  The whole run follows by induction on the fuel.

The signals, and which statement takes which, are those of §4.8 of the specification.
-/

namespace Scriptlet

/-! ## 1. Statements inside of statements

The statements of a declaration stand inside of it too, although it does not run them. -/

namespace Stmt

/-- The statements that a statement is directly made of, also those of a function that it
declares. -/
def parts : Stmt → List Stmt
  | .block body _ => body
  | .ifElse _ whenTrue whenFalse _ => whenTrue :: whenFalse.toList
  | .switch _ sections _ => sections.flatMap Section.body
  | .whileLoop _ body _ => [body]
  | .forLoop _ _ _ body _ => [body]
  | .declare decl => decl.body
  | .breakLoop _ | .continueLoop _ | .returnValue _ _ | .expr _ => []

/-- `s.Contains around inner` says that the statement `inner` stands in `s`, inside of the
statements `around`.  The outermost of these is `s`, unless `inner` is `s` itself. -/
inductive Contains : Stmt → (around : List Stmt) → (inner : Stmt) → Prop where
  | self {s : Stmt} : Contains s [] s
  | inside {s part inner : Stmt} {around : List Stmt} :
      part ∈ s.parts → Contains part around inner → Contains s (s :: around) inner

def jump? : Stmt → Option Signal
  | .breakLoop _ => some .breaking
  | .continueLoop _ => some .continuing
  | .returnValue _ _ => some .returning
  | _ => none

def isLoop : Stmt → Bool
  | .whileLoop _ _ _ | .forLoop _ _ _ _ _ => true
  | _ => false

def isSwitch : Stmt → Bool
  | .switch _ _ _ => true
  | _ => false

def isDeclaration : Stmt → Bool
  | .declare _ => true
  | _ => false

/-- Whether a jump inside of the statement with this signal goes no further than the statement.  A
declared function takes all jumps, a loop takes breaks and continues, and a switch takes breaks. -/
def takes (s : Stmt) : Signal → Bool
  | .breaking => s.isDeclaration || s.isLoop || s.isSwitch
  | .continuing => s.isDeclaration || s.isLoop
  | _ => s.isDeclaration

theorem takes_eq_false {s : Stmt} (hdeclaration : s.isDeclaration = false)
    (hloop : s.isLoop = false) (hswitch : s.isSwitch = false) (signal : Signal) :
    s.takes signal = false := by
  cases signal <;> simp [takes, hdeclaration, hloop, hswitch]

theorem takes_of_isDeclaration {s : Stmt} (h : s.isDeclaration = true) (signal : Signal) :
    s.takes signal = true := by
  cases signal <;> simp [takes, h]

/-- A jump takes no signal itself. -/
theorem takes_of_jump? {s : Stmt} {signal : Signal} (h : s.jump? = some signal) :
    s.takes signal = false := by
  cases s with
  | breakLoop _ | continueLoop _ | returnValue _ _ => exact takes_eq_false rfl rfl rfl signal
  | _ => cases h

end Stmt

namespace Eval

/-- A run of the statement that ends with this flow in the store `τ` ends with a jump of its own:
the jump stands in the statement, no statement around it takes its signal, and it ends with this
flow in this store. -/
def EndsByJump [Host] (s : Stmt) (flow : Flow) (τ : Store) : Prop :=
  ∃ around jump, s.Contains around jump ∧ jump.jump? = some flow.signal ∧
    (∀ t ∈ around, t.takes flow.signal = false) ∧ ∃ fuel env υ, exec fuel env jump υ = .done flow τ

/-- What does not take the signal may stand around the jump. -/
theorem EndsByJump.inside [Host] {s part : Stmt} {flow : Flow} {τ : Store}
    (h : EndsByJump part flow τ) (hpart : part ∈ s.parts) (htakes : s.takes flow.signal = false) :
    EndsByJump s flow τ := by
  obtain ⟨around, jump, hcontains, hjump, haround, hrun⟩ := h
  refine ⟨s :: around, jump, .inside hpart hcontains, hjump, ?_, hrun⟩
  intro t ht
  rcases List.mem_cons.1 ht with rfl | ht
  · exact htakes
  · exact haround t ht

/-- No signal gets out of a statement that takes it. -/
theorem EndsByJump.takes_eq_false [Host] {s : Stmt} {flow : Flow} {τ : Store}
    (h : EndsByJump s flow τ) :
    s.takes flow.signal = false := by
  obtain ⟨around, jump, hcontains, hjump, haround, -⟩ := h
  cases hcontains with
  | self => exact Stmt.takes_of_jump? hjump
  | inside _ _ => exact haround s List.mem_cons_self

end Eval

/-! ## 2. Lists, loops and sections

A list hands on the flow of one of its statements, a loop only returns, and sections all but breaks.
-/

namespace Flow

variable {run : Stmt → Eval Flow} {flow : Flow} {σ τ : Store}

/-- Behind a statement the list goes on, or ends as the statement did. -/
theorem andThen_done {next : Value → Eval Flow} {first : Flow}
    (h : andThen next first σ = .done flow τ) :
    next first.value σ = .done flow τ ∨ first = flow ∧ σ = τ := by
  obtain ⟨v, signal⟩ := first
  cases signal with
  | normal => exact .inl h
  | returning | breaking | continuing =>
    cases h
    exact .inr ⟨rfl, rfl⟩

/-- A list of statements that does not end normally ends as one of them does. -/
theorem sequence_done {last : Value} {body : List Stmt}
    (h : sequence run last body σ = .done flow τ) (hsignal : flow.signal ≠ .normal) :
    ∃ s ∈ body, ∃ υ, run s υ = .done flow τ := by
  induction body generalizing last σ with
  | nil =>
    cases h
    exact absurd rfl hsignal
  | cons s rest ih =>
    rw [sequence_cons] at h
    obtain ⟨first, υ, hfirst, hrest⟩ := Eval.bind_done h
    rcases andThen_done hrest with hrest | ⟨rfl, rfl⟩
    · obtain ⟨s', hs', hrun⟩ := ih hrest
      exact ⟨s', List.mem_cons_of_mem s hs', hrun⟩
    · exact ⟨s, List.mem_cons_self, σ, hfirst⟩

/-- A loop ends normally or with a return of its body. -/
theorem loop_done {test : Eval Bool} {body : Eval Flow} {step : Eval Unit} {n : Nat} {last : Value}
    (h : loop test body step n last σ = .done flow τ) :
    flow.signal = .normal ∨ flow.signal = .returning ∧ ∃ υ, body υ = .done flow τ := by
  induction n generalizing last σ with
  | zero => cases h
  | succ n ih =>
    obtain ⟨b, υ, -, hbranch⟩ := Eval.bind_done h
    cases b with
    | false =>
      cases hbranch
      exact .inl rfl
    | true =>
      obtain ⟨⟨v, signal⟩, ω, hbody, hrest⟩ := Eval.bind_done hbranch
      cases signal with
      | returning =>
        cases hrest
        exact .inr ⟨rfl, υ, hbody⟩
      | breaking =>
        cases hrest
        exact .inl rfl
      | normal | continuing =>
        obtain ⟨-, ρ, -, hloop⟩ := Eval.bind_done hrest
        exact ih hloop

/-- Sections that do not end normally end as the body of one of them does, and not with a break. -/
theorem runSections_done {body : List Stmt → Eval Flow} {last : Value} {sections : List Section}
    (h : runSections body last sections σ = .done flow τ) (hsignal : flow.signal ≠ .normal) :
    flow.signal ≠ .breaking ∧ ∃ s ∈ sections, ∃ υ, body s.body υ = .done flow τ := by
  induction sections generalizing last σ with
  | nil =>
    cases h
    exact absurd rfl hsignal
  | cons s rest ih =>
    obtain ⟨⟨v, signal⟩, υ, hbody, hrest⟩ := Eval.bind_done h
    cases signal with
    | normal =>
      obtain ⟨hbreak, s', hs', hrun⟩ := ih hrest
      exact ⟨hbreak, s', List.mem_cons_of_mem s hs', hrun⟩
    | breaking =>
      cases hrest
      exact absurd rfl hsignal
    | returning | continuing =>
      cases hrest
      exact ⟨by simp, s, List.mem_cons_self, σ, hbody⟩

/-- Each case comes with the sections from its own on. -/
theorem suffix_of_mem_cases {e : Expr} {start sections : List Section}
    (h : (e, start) ∈ cases sections) :
    start <:+ sections := by
  induction sections with
  | nil => cases h
  | cons s rest ih =>
    rcases List.mem_append.1 h with h | h
    · obtain ⟨label, -, hlabel⟩ := List.mem_map.1 h
      cases hlabel
      exact List.suffix_refl _
    · exact (ih h).trans (List.suffix_cons s rest)

/-- A search starts at one of the sections and goes on with those behind it, or finds none. -/
theorem suffix_of_select {test : Expr → Eval Bool} {sections chosen : List Section}
    (h : select test none sections σ = .done chosen τ) : chosen <:+ sections := by
  obtain ⟨o, hsearch⟩ := exists_search test sections σ
  obtain rfl := hsearch.eq_select.symm.trans h
  cases hsearch with
  | matched _ hcases _ =>
    exact suffix_of_mem_cases (hcases ▸ List.mem_append_right _ List.mem_cons_self)
  | unmatched _ => exact List.dropWhile_suffix _

end Flow

/-! ## 3. Steps and runs

A signal that a statement ends with comes from one of its parts that it runs, or the statement is
the jump. -/

namespace Eval

section Signals

variable {n fuel : Nat} {env : Env} {s : Stmt} {flow : Flow} {σ τ : Store}

theorem placedAt_done {α : Type} {line : Nat} {m : Eval α} {a : α}
    (h : placedAt line m σ = .done a τ) :
    m σ = .done a τ := by
  unfold placedAt at h
  cases hm : m σ with
  | done b υ =>
    rw [hm] at h
    exact h
  | failed e υ =>
    rw [hm] at h
    cases h
  | exhausted =>
    rw [hm] at h
    cases h

variable [Host]

/-- A step that does not end normally is a jump, or ends as one of the parts of the statement does,
and the statement does not take the signal. -/
theorem exec_signal_cases (h : exec (n + 1) env s σ = .done flow τ)
    (hsignal : flow.signal ≠ .normal) :
    s.jump? = some flow.signal ∨
      s.takes flow.signal = false ∧
        ∃ part ∈ s.parts, ∃ scope υ, exec n scope part υ = .done flow τ := by
  cases s with
  | block body pos =>
    obtain ⟨scope, υ, -, hbody⟩ := bind_done h
    obtain ⟨part, hpart, ω, hrun⟩ := Flow.sequence_done hbody hsignal
    exact .inr ⟨Stmt.takes_eq_false rfl rfl rfl _, part, hpart, scope, ω, hrun⟩
  | ifElse c whenTrue whenFalse pos =>
    obtain ⟨v, υ, -, hbranch⟩ := bind_done h
    obtain ⟨b, ω, -, hbranch⟩ := bind_done hbranch
    refine .inr ⟨Stmt.takes_eq_false rfl rfl rfl _, ?_⟩
    cases b with
    | true => exact ⟨whenTrue, List.mem_cons_self, env, ω, hbranch⟩
    | false =>
      cases whenFalse with
      | none =>
        cases hbranch
        exact absurd rfl hsignal
      | some s => exact ⟨s, List.mem_cons_of_mem _ List.mem_cons_self, env, ω, hbranch⟩
  | switch subject sections pos =>
    obtain ⟨v, υ, -, hselect⟩ := bind_done h
    obtain ⟨chosen, ω, hchosen, hsections⟩ := bind_done hselect
    obtain ⟨hbreak, sec, hsec, ρ, hbody⟩ := Flow.runSections_done hsections hsignal
    obtain ⟨part, hpart, ρ', hrun⟩ := Flow.sequence_done hbody hsignal
    refine .inr ⟨?_, part, ?_, env, ρ', hrun⟩
    · cases hflow : flow.signal with
      | breaking => exact absurd hflow hbreak
      | normal | returning | continuing => rfl
    · exact List.mem_flatMap.2 ⟨sec, (Flow.suffix_of_select hchosen).subset hsec, hpart⟩
  | whileLoop c body pos =>
    rcases Flow.loop_done h with hnormal | ⟨hreturn, υ, hrun⟩
    · exact absurd hnormal hsignal
    · exact .inr ⟨by rw [hreturn]; rfl, body, List.mem_cons_self, env, υ, hrun⟩
  | forLoop init c step body pos =>
    obtain ⟨υ, hloop⟩ : ∃ υ, Flow.loop _ (exec n env body) _ n .invalid υ = .done flow τ := by
      cases init with
      | none => exact ⟨σ, h⟩
      | some e =>
        obtain ⟨-, υ, -, hloop⟩ := bind_done h
        exact ⟨υ, hloop⟩
    rcases Flow.loop_done hloop with hnormal | ⟨hreturn, ω, hrun⟩
    · exact absurd hnormal hsignal
    · exact .inr ⟨by rw [hreturn]; rfl, body, List.mem_cons_self, env, ω, hrun⟩
  | breakLoop pos =>
    cases h
    exact .inl rfl
  | continueLoop pos =>
    cases h
    exact .inl rfl
  | returnValue value pos =>
    cases value with
    | none =>
      cases h
      exact .inl rfl
    | some e =>
      obtain ⟨v, υ, -, hreturn⟩ := bind_done h
      cases hreturn
      exact .inl rfl
  | expr e =>
    obtain ⟨v, υ, -, hvalue⟩ := bind_done h
    cases hvalue
    exact absurd rfl hsignal
  | declare decl =>
    obtain ⟨f, υ, -, hdefine⟩ := bind_done h
    obtain ⟨-, ω, -, hvalue⟩ := bind_done hdefine
    cases hvalue
    exact absurd rfl hsignal

/-- A statement that does not end normally ends by a jump of its own. -/
theorem endsByJump_of_exec (h : exec fuel env s σ = .done flow τ)
    (hsignal : flow.signal ≠ .normal) :
    EndsByJump s flow τ := by
  induction fuel generalizing env s σ with
  | zero => cases h
  | succ n ih =>
    rcases exec_signal_cases h hsignal with hjump | ⟨htakes, part, hpart, scope, υ, hrun⟩
    · exact ⟨[], s, .self, hjump, by simp, n + 1, env, σ, h⟩
    · exact (ih hrun).inside hpart htakes

/-! ## 4. Calls

The signal of a body goes no further than the call, which gives the value only. -/

/-- A call that gives a value evaluates its callee to a function, then its arguments, and calls the
function. -/
theorem eval_call_done {callee : Expr} {args : List Arg} {pos : Position} {v : Value}
    (h : eval fuel env (.call callee args pos) σ = .done v τ) :
    ∃ n f vs υ ω, eval n env callee σ = .done (.function f) υ ∧
      arguments (eval n env) args υ = .done vs ω ∧ invoke n f vs ω = .done v τ := by
  cases fuel with
  | zero => cases h
  | succ n =>
    obtain ⟨w, υ, hcallee, hcall⟩ := bind_done h
    cases w with
    | function f =>
      obtain ⟨vs, ω, hargs, hinvoke⟩ := bind_done hcall
      exact ⟨n, f, vs, υ, ω, hcallee, hargs, placedAt_done hinvoke⟩
    | _ => cases hcall

/-- A call of a declared function binds its parameters in a scope of its own and runs its body
there, and the body ends with this flow in the store `τ`. -/
def BodyEnds (fn : Function) (vs : List Argument) (σ : Store) (inner : Flow) (τ : Store) : Prop :=
  ∃ n statements closure scope υ ω,
    fn.body = .script statements closure ∧ σ.enter closure = (scope, υ) ∧
    Parameter.bindAll (eval n scope) scope fn.params (Argument.bind (fn.params.map (·.name)) vs) υ =
      .done () ω ∧
    Flow.sequence (exec n scope) .invalid statements ω = .done inner τ

/-- The call gives the value with which the body ends, and drops the signal. -/
theorem bodyEnds_of_invoke {f : FunctionId} {vs : List Argument} {v : Value}
    {statements : List Stmt} {closure : Env}
    (hbody : (σ.function f).body = .script statements closure)
    (h : invoke fuel f vs σ = .done v τ) :
    ∃ inner, BodyEnds (σ.function f) vs σ inner τ ∧ inner.value = v := by
  cases fuel with
  | zero => cases h
  | succ n =>
    generalize hfunction : σ.function f = fn at hbody ⊢
    obtain ⟨name, params, body⟩ := fn
    cases hbody
    rw [invoke_script hfunction] at h
    obtain ⟨scope, υ, henter, hbind⟩ := bind_done h
    obtain ⟨_, ω, hparams, hrun⟩ := bind_done hbind
    obtain ⟨inner, ρ, hinner, hvalue⟩ := bind_done hrun
    cases henter
    cases hvalue
    exact ⟨inner, ⟨n, statements, closure, _, _, ω, rfl, rfl, hparams, hinner⟩, rfl⟩

/-! ## 5. The scope of signals -/

/-- A loop that does not end normally ends with a return. -/
theorem EndsByJump.of_isLoop (h : EndsByJump s flow τ) (hloop : s.isLoop = true)
    (hsignal : flow.signal ≠ .normal) :
    flow.signal = .returning := by
  have htakes := h.takes_eq_false
  cases hflow : flow.signal with
  | normal => exact absurd hflow hsignal
  | returning => rfl
  | breaking | continuing => simp [hflow, Stmt.takes, hloop] at htakes

theorem EndsByJump.of_isSwitch (h : EndsByJump s flow τ) (hswitch : s.isSwitch = true) :
    flow.signal ≠ .breaking := by
  have htakes := h.takes_eq_false
  intro hflow
  simp [hflow, Stmt.takes, hswitch] at htakes

/-- A statement that ends with a signal ends by a jump of its own text, outside of declared
functions and of the loops and switches that take the signal.  So a loop ends normally or with a
return, a switch does not end with a break, and a statement whose jumps all stand in declared
functions ends normally, whatever it calls.  A call as a statement ends normally, too, with the
value of the function's body, whatever the signal with which that ended. -/
theorem signals_are_lexically_scoped (h : exec fuel env s σ = .done flow τ) :
    (flow.signal ≠ .normal → EndsByJump s flow τ) ∧
    (s.isLoop = true → flow.signal = .normal ∨ flow.signal = .returning) ∧
    (s.isSwitch = true → flow.signal ≠ .breaking) ∧
    ((∀ around jump, s.Contains around jump → jump.jump? ≠ none →
      ∃ t ∈ around, t.isDeclaration = true) → flow.signal = .normal) ∧
    ∀ callee args pos, s = .expr (.call callee args pos) → flow.signal = .normal ∧
      ∃ n f vs υ ω, eval n env callee σ = .done (.function f) υ ∧
        arguments (eval n env) args υ = .done vs ω ∧ invoke n f vs ω = .done flow.value τ ∧
        ∀ statements closure, (ω.function f).body = .script statements closure →
          ∃ inner, BodyEnds (ω.function f) vs ω inner τ ∧ inner.value = flow.value := by
  have hjump := endsByJump_of_exec h
  refine ⟨hjump, ?_, ?_, ?_, ?_⟩
  · intro hloop
    by_cases hsignal : flow.signal = .normal
    · exact .inl hsignal
    · exact .inr ((hjump hsignal).of_isLoop hloop hsignal)
  · intro hswitch hbreak
    have hsignal : flow.signal ≠ .normal := by simp [hbreak]
    exact (hjump hsignal).of_isSwitch hswitch hbreak
  · intro hdeclared
    by_cases hsignal : flow.signal = .normal
    · exact hsignal
    · obtain ⟨around, jump, hcontains, hjump, haround, -⟩ := hjump hsignal
      obtain ⟨t, ht, hdeclaration⟩ := hdeclared around jump hcontains (by simp [hjump])
      have htakes := haround t ht
      rw [Stmt.takes_of_isDeclaration hdeclaration] at htakes
      cases htakes
  · rintro callee args pos rfl
    cases fuel with
    | zero => cases h
    | succ n =>
      obtain ⟨v, υ, hcall, hvalue⟩ := bind_done h
      cases hvalue
      obtain ⟨k, f, vs, ω, ρ, hcallee, hargs, hinvoke⟩ := eval_call_done hcall
      refine ⟨rfl, k, f, vs, ω, ρ, hcallee, hargs, hinvoke, ?_⟩
      intro statements closure hbody
      exact bodyEnds_of_invoke hbody hinvoke

end Signals

def returningStore : Store :=
  ⟨#[], #[⟨[("f", .function ⟨0⟩)]⟩],
    #[⟨"f", [], .script [.returnValue (some (.int 1 .start)) .start, .breakLoop .start] ⟨⟨0⟩, []⟩⟩]⟩

/-- A loop with a switch that breaks, a call of a function that returns, and a return of its own
behind both. -/
def jumpingLoop : Stmt :=
  .whileLoop (.bool true .start) (.block
    [.switch (.int 1 .start) [.mk [.default] [.breakLoop .start]] .start,
     .expr (.call (.var "f" .start) [] .start),
     .returnValue (some (.int 2 .start)) .start] .start) .start

/-- The break stays in the switch and the return of the function in its call, and the loop ends by
its own return. -/
theorem jumpingLoop_returns :
    ∃ τ, exec 10 ⟨⟨0⟩, []⟩ jumpingLoop returningStore = .done ⟨.int 2, .returning⟩ τ ∧
      EndsByJump jumpingLoop ⟨.int 2, .returning⟩ τ := by
  obtain ⟨τ, hrun⟩ :
      ∃ τ, exec 10 ⟨⟨0⟩, []⟩ jumpingLoop returningStore = .done ⟨.int 2, .returning⟩ τ := ⟨_, rfl⟩
  exact ⟨τ, hrun, (signals_are_lexically_scoped hrun).1 (by simp)⟩

end Eval
end Scriptlet
