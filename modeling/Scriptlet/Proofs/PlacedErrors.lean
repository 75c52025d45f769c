import Scriptlet.Proofs.ConfinedRuns
import Scriptlet.Proofs.TreeNodes

/-!
# Errors are placed on the lines of calls, assignments and steps

A write or a native function does not know the line it is used on, so its error has none, which is
line zero.  The node around it is a call, an assignment or a step, and places the error on its own
line, unless the error comes from inside of a function and has a line already.  So there are two
kinds of computations: those of nodes fail on the lines of nodes only, and those inside of a node
may also fail on line zero.

`Eval.Raises C L A m Q` says of a computation that its errors have lines in `A`, if all code of the
store places errors on lines in `L`.  There is one rule for each way to make a computation and one
lemma for each function of the evaluator.

That a runtime error carries the line of the expression, and that native code reports none and has
the line of the call stamped on it, is §10.2 of the specification.
-/

namespace Scriptlet

/-! ## 1. Code that places its errors

Which lines there are is a parameter, and so is which functions of a host may be called. -/

/-- Whether a node can raise an error of its own: calls, assignments and steps. -/
def Expr.raises : Expr → Bool
  | .call _ _ _ => true
  | .binary .assign _ _ _ => true
  | .binary (.update _) _ _ _ => true
  | .unary (.step _) _ _ => true
  | .trailing _ _ _ => true
  | _ => false

/-- A node that can raise an error stands on one of the lines. -/
def Expr.RaisesOn (L : Nat → Prop) (e : Expr) : Prop := e.raises = true → L e.pos.line

def Function.hostCode? (fn : Function) : Option HostFunction :=
  match fn.body with
  | .native (.host f) _ => some f
  | _ => none

/-- A function whose code is placed on the lines.  If a host supplies it, its tag is one of `C`. -/
structure Function.RaisesOn (C : HostFunction → Prop) (L : Nat → Prop) (fn : Function) : Prop where
  default : ∀ param ∈ fn.params, ∀ e, param.default = some (.expr e) → e.All (·.RaisesOn L)
  script : ∀ statements closure, fn.body = .script statements closure →
    ∀ s ∈ statements, s.All (·.RaisesOn L)
  hosted : ∀ f ∈ fn.hostCode?, C f

def Store.RaisesOn (C : HostFunction → Prop) (L : Nat → Prop) (σ : Store) : Prop :=
  ∀ f, (σ.function f).RaisesOn C L

section Stores

variable {C : HostFunction → Prop} {L M : Nat → Prop} {σ τ : Store}

theorem Expr.RaisesOn.mono (hLM : ∀ line, L line → M line) {e : Expr} (h : e.RaisesOn L) :
    e.RaisesOn M :=
  fun he => hLM _ (h he)

theorem Function.RaisesOn.mono (hLM : ∀ line, L line → M line) {fn : Function}
    (h : fn.RaisesOn C L) :
    fn.RaisesOn C M where
  default param hparam e he x hx := (h.default param hparam e he x hx).mono hLM
  script statements closure hbody s hs x hx :=
    (h.script statements closure hbody s hs x hx).mono hLM
  hosted := h.hosted

theorem Function.RaisesOn.hosted_of_body {fn : Function} (h : fn.RaisesOn C L) {code : Native}
    {variadic : Bool} (hbody : fn.body = .native code variadic) {f : HostFunction}
    (hcode : code = .host f) : C f := by
  refine h.hosted f ?_
  rw [hostCode?, hbody, hcode]
  rfl

/-- Whether a function is native code that evaluates nothing for its parameters. -/
def Function.isPlainNative (fn : Function) : Bool :=
  fn.params.all (fun param => match param.default with
    | some (.expr _) => false
    | _ => true) &&
  match fn.body with
  | .native _ _ => true
  | _ => false

theorem Function.raisesOn_of_isPlainNative {fn : Function} (h : fn.isPlainNative = true)
    (hC : ∀ f ∈ fn.hostCode?, C f) : fn.RaisesOn C L := by
  simp only [isPlainNative, Bool.and_eq_true, List.all_eq_true] at h
  obtain ⟨hparams, hbody⟩ := h
  refine ⟨fun param hparam e he => ?_, fun statements closure hscript => ?_, hC⟩
  · have hdefault := hparams param hparam
    rw [he] at hdefault
    cases hdefault
  · rw [hscript] at hbody
    cases hbody

/-- The code of a declared function is part of its declaration. -/
theorem Function.ofDecl_raisesOn {decl : FnDecl} (h : (Stmt.declare decl).All (·.RaisesOn L))
    (env : Env) :
    (Function.ofDecl decl env).RaisesOn C L := by
  obtain ⟨hparams, hbody⟩ := Stmt.all_declare.1 h
  refine ⟨fun param hparam e he => ?_, fun statements closure hscript => ?_, nofun⟩
  · obtain ⟨q, hq, rfl⟩ := List.mem_map.1 hparam
    obtain ⟨e', he', heq⟩ := Option.map_eq_some_iff.1 he
    cases heq
    exact hparams q hq e he'
  · cases hscript
    exact hbody

namespace Store

theorem RaisesOn.mono (hLM : ∀ line, L line → M line) (h : σ.RaisesOn C L) : σ.RaisesOn C M :=
  fun f => (h f).mono hLM

theorem empty_raisesOn : Store.empty.RaisesOn C L :=
  fun _ => Function.raisesOn_of_isPlainNative rfl nofun

theorem RaisesOn.of_functions_eq (h : σ.RaisesOn C L) (heq : τ.functions = σ.functions) :
    τ.RaisesOn C L := by
  intro f
  rw [function, heq]
  exact h f

theorem RaisesOn.newFunction (h : σ.RaisesOn C L) {fn : Function} (hfn : fn.RaisesOn C L) :
    (σ.newFunction fn).2.RaisesOn C L := by
  intro f
  rw [function_newFunction]
  split
  · exact hfn
  · exact h f

/-- No code is made at run time: a new function runs the code of others. -/
theorem RaisesOn.newApplied (h : σ.RaisesOn C L) (target : FunctionId) (bound : Value) :
    (σ.newApplied target bound).2.RaisesOn C L :=
  h.newFunction ⟨fun param hparam => (h target).default param (List.mem_of_mem_drop hparam),
    nofun, nofun⟩

theorem RaisesOn.newComposite (h : σ.RaisesOn C L) (outer inner : FunctionId) :
    (σ.newComposite outer inner).2.RaisesOn C L :=
  h.newFunction ⟨(h inner).default, nofun, nofun⟩

theorem set_functions (σ : Store) (env : Env) (x : String) (v : Value) :
    (σ.set env x v).functions = σ.functions := by
  rw [set_eq]
  rfl

end Store
end Stores

/-! ## 2. Rules

An error has a line that is allowed, or none yet; placing it gives it one. -/

/-- How a computation may end: with an error on a line in `A` or a value with the property, and all
code placed on the lines in `L`. -/
def Outcome.Raises {α : Type} (C : HostFunction → Prop) (L A : Nat → Prop) (Q : α → Prop) :
    Outcome α → Prop
  | .done a τ => τ.RaisesOn C L ∧ Q a
  | .failed e τ => τ.RaisesOn C L ∧ A e.line
  | .exhausted => True

def OrUnplaced (L : Nat → Prop) (line : Nat) : Prop := line = 0 ∨ L line

namespace Eval

/-- From a store whose code is placed on the lines in `L`, the computation fails on lines in `A`
only. -/
def Raises {α : Type} (C : HostFunction → Prop) (L A : Nat → Prop) (m : Eval α) (Q : α → Prop) :
    Prop :=
  ∀ σ, σ.RaisesOn C L → (m σ).Raises C L A Q

section Rules

variable {α β : Type} {C : HostFunction → Prop} {L A B : Nat → Prop} {Q : α → Prop}
  {R : β → Prop}

theorem Raises.weaken {m : Eval α} (h : Raises C L A m Q) (hAB : ∀ line, A line → B line) :
    Raises C L B m Q := by
  intro σ hσ
  have hm := h σ hσ
  cases hrun : m σ with
  | done a τ => rwa [hrun] at hm
  | failed e τ =>
    rw [hrun] at hm
    exact ⟨hm.1, hAB _ hm.2⟩
  | exhausted => trivial

theorem Raises.pure {a : α} (h : Q a) : Raises C L A (pure a) Q := fun _ hσ => ⟨hσ, h⟩

theorem Raises.bind {m : Eval α} {f : α → Eval β} (hm : Raises C L A m Q)
    (hf : ∀ a, Q a → Raises C L A (f a) R) :
    Raises C L A (m >>= f) R := by
  intro σ hσ
  have h := hm σ hσ
  simp only [Bind.bind]
  cases hrun : m σ with
  | done a τ =>
    rw [hrun] at h
    exact hf a h.2 τ h.1
  | failed e τ => rwa [hrun] at h
  | exhausted => trivial

theorem Raises.exhausted : Raises C L A (exhausted : Eval α) Q := fun _ _ => trivial

theorem Raises.fail {fault : Fault} (h : A 0) : Raises C L A (fail fault : Eval α) Q :=
  fun _ hσ => ⟨hσ, h⟩

theorem Raises.failAt {line : Nat} {fault : Fault} (h : A line) :
    Raises C L A (failAt line fault : Eval α) Q :=
  fun _ hσ => ⟨hσ, h⟩

theorem Raises.look {f : Store → Option α} : Raises C L A (look f) fun _ => True := by
  intro σ hσ
  unfold Eval.look
  split
  · exact ⟨hσ, trivial⟩
  · trivial

theorem Raises.view {f : Store → α} (h : ∀ σ, σ.RaisesOn C L → Q (f σ)) : Raises C L A (view f) Q :=
  fun σ hσ => ⟨hσ, h σ hσ⟩

theorem Raises.alter {f : Store → Store} (h : ∀ σ, (f σ).functions = σ.functions) :
    Raises C L A (alter f) fun _ => True :=
  fun σ hσ => ⟨hσ.of_functions_eq (h σ), trivial⟩

theorem Raises.fresh {f : Store → α × Store} (h : ∀ σ, σ.RaisesOn C L → (f σ).2.RaisesOn C L) :
    Raises C L A (fresh f) fun _ => True :=
  fun σ hσ => ⟨h σ hσ, trivial⟩

/-- An error without a line gets one, and any other keeps its own. -/
theorem Raises.placedAt {line : Nat} {m : Eval α} (hline : L line)
    (h : Raises C L (OrUnplaced L) m Q) :
    Raises C L L (placedAt line m) Q := by
  intro σ hσ
  have hm := h σ hσ
  unfold Eval.placedAt
  cases hrun : m σ with
  | done a τ => rwa [hrun] at hm
  | failed e τ =>
    rw [hrun] at hm
    refine ⟨hm.1, ?_⟩
    unfold RuntimeError.place
    split
    -- The line was zero.
    · exact hline
    · next hplaced => exact hm.2.resolve_left hplaced
  | exhausted => trivial

theorem Raises.forEach {f : α → Eval β} :
    ∀ {as : List α}, (∀ a ∈ as, Raises C L A (f a) fun _ => True) →
    Raises C L A (forEach f as) fun _ => True
  | [], _ => .pure trivial
  | a :: as, h => by
    refine .bind (h a (by simp)) fun b _ => ?_
    exact .bind (Raises.forEach fun a' ha' => h a' (by simp [ha'])) fun _ _ => .pure trivial

end Rules

/-! ## 3. Writing and native code

Neither knows a line, so line zero has to be allowed. -/

section Native

variable {C : HostFunction → Prop} {L A : Nat → Prop} {fuel : Nat}

/-- However deep the visits go, a write is refused without a line. -/
theorem raises_writeWithin (hzero : A 0) (budget : Nat) (r : Reference) (v : Value) :
    Raises C L A (writeWithin fuel budget r v) fun _ => True := by
  induction budget generalizing r v with
  | zero => exact .fail hzero
  | succ budget ih =>
    cases r with
    | direct w => exact .fail hzero
    | binding env x =>
      refine .bind (Q := fun _ => True) (.view fun _ _ => trivial) fun o _ => ?_
      split
      · exact ih _ _
      · exact .alter fun σ => σ.set_functions env x v
    | element base index =>
      rw [writeWithin]
      refine .bind .look fun i _ => ?_
      split
      · exact .bind .look fun _ _ => .fail hzero
      · refine .bind .look fun u _ => ?_
        split
        · refine .bind (Q := fun _ => True) (.view fun _ _ => trivial) fun n _ => ?_
          refine .bind (Q := fun _ => True) (.view fun _ _ => trivial) fun o _ => ?_
          split
          · exact ih _ _
          · split
            · exact .fail hzero
            · exact .alter fun _ => rfl
        · split
          · exact .fail hzero
          · exact .bind .look fun _ _ => ih _ _
        · split
          · exact .fail hzero
          · exact .bind (.fresh fun _ hσ => hσ.of_functions_eq rfl) fun _ _ => ih _ _
        · exact .fail hzero

theorem raises_write (hzero : A 0) (r : Reference) (v : Value) :
    Raises C L A (write fuel r v) fun _ => True :=
  raises_writeWithin hzero (hopLimit + 1) r v

theorem raises_numberArgument {args : List Value} {i : Nat} :
    Raises C L A (Native.numberArgument fuel args i) fun _ => True :=
  .bind .look fun _ _ => .look

theorem raises_operandArgument {args : List Value} {i : Nat} :
    Raises C L A (Native.operandArgument fuel args i) fun _ => True :=
  .bind .look fun _ _ => .look

theorem raises_arrayArgument (hzero : A 0) {args : List Value} {i : Nat} {who : String} :
    Raises C L A (Native.arrayArgument fuel args i who) fun _ => True := by
  refine .bind .look fun v _ => ?_
  split
  · exact .pure trivial
  · exact .fail hzero

theorem raises_functionArgument (hzero : A 0) {args : List Value} {i : Nat} {who : String} :
    Raises C L A (Native.functionArgument fuel args i who) fun _ => True := by
  refine .bind .look fun v _ => ?_
  split
  · exact .pure trivial
  · exact .fail hzero

theorem raises_copy {v : Value} :
    Raises C L A (fun σ => match σ.copy fuel v with
      | some (w, τ) => .done w τ
      | none => .exhausted) fun _ => True := by
  intro σ hσ
  dsimp only
  cases hcopy : σ.copy fuel v with
  | none => trivial
  | some wτ => exact ⟨hσ.of_functions_eq (Store.copiedTo_of_copy hcopy).functions, trivial⟩

end Native
end Eval

/-- The functions in `C` of a host leave the lines of their errors to the call: they fail without a
line, or as the functions that they call, and the functions that they make do so too. -/
def Host.LeavesLines [Host] (C : HostFunction → Prop) : Prop :=
  ∀ (f : HostFunction), C f → ∀ (L A : Nat → Prop), A 0 →
    ∀ call : FunctionId → List Argument → Eval Value,
      (∀ g args, Eval.Raises C L A (call g args) fun _ => True) →
      ∀ (fuel : Nat) (args : List Value),
        Eval.Raises C L A (Host.run call fuel f args) fun _ => True

namespace Eval
section Library

variable [Host] {C : HostFunction → Prop} {L A : Nat → Prop} {fuel : Nat}
variable {call : FunctionId → List Argument → Eval Value} {args : List Value}

/-- Native code fails without a line, or as the functions that it calls. -/
theorem raises_run (hC : Host.LeavesLines C) (hzero : A 0)
    (hcall : ∀ f args, Raises C L A (call f args) fun _ => True) {code : Native}
    (hcode : ∀ f, code = .host f → C f) :
    Raises C L A (Native.run call fuel code args) fun _ => True := by
  cases code with
  | len =>
    refine .bind .look fun v _ => ?_
    split
    · exact .pure trivial
    · exact .bind (Q := fun _ => True) (.view fun _ _ => trivial) fun _ _ => .pure trivial
    · exact .bind .look fun _ _ => .pure trivial
  | type => exact .pure trivial
  | int | float | isNaN | isInf | sqrt | abs | floor | ceil | round =>
    exact .bind raises_numberArgument fun _ _ => .pure trivial
  | str | bool => exact .bind .look fun _ _ => .bind .look fun _ _ => .pure trivial
  | min | max =>
    exact .bind raises_operandArgument fun _ _ => .bind raises_operandArgument fun _ _ =>
      .pure trivial
  | clamp =>
    exact .bind raises_operandArgument fun _ _ => .bind raises_operandArgument fun _ _ =>
      .bind raises_operandArgument fun _ _ => .pure trivial
  | pow =>
    exact .bind raises_numberArgument fun _ _ => .bind raises_numberArgument fun _ _ =>
      .pure trivial
  | push =>
    refine .bind (raises_arrayArgument hzero) fun a _ => .bind (.alter fun _ => rfl) fun _ _ => ?_
    exact .bind (Q := fun _ => True) (.view fun _ _ => trivial) fun _ _ => .pure trivial
  | pop =>
    refine .bind (raises_arrayArgument hzero) fun a _ => ?_
    refine .bind (Q := fun _ => True) (.view fun _ _ => trivial) fun last _ => ?_
    exact .bind (.alter fun _ => rfl) fun _ _ => .pure trivial
  | join =>
    refine .bind (raises_arrayArgument hzero) fun a _ => .bind .look fun v _ => ?_
    exact .bind .look fun _ _ => .bind .look fun _ _ => .pure trivial
  | copy => exact .bind .look fun _ _ => raises_copy
  | bindFirst =>
    refine .bind (raises_functionArgument hzero) fun f _ => ?_
    exact .bind (.fresh fun _ hσ => hσ.newApplied f _) fun _ _ => .pure trivial
  | compose =>
    refine .bind (raises_functionArgument hzero) fun f _ => .bind (raises_functionArgument hzero)
      fun g _ => ?_
    exact .bind (.fresh fun _ hσ => hσ.newComposite f g) fun _ _ => .pure trivial
  | host f => exact hC f (hcode f rfl) L A hzero call hcall fuel args

end Library

/-! ## 4. Control flow and parameters

Loops and lists place nothing, and hand on what their parts raise. -/

section Flow

variable {C : HostFunction → Prop} {L A : Nat → Prop}

theorem raises_sequence {exec : Stmt → Eval Flow} : ∀ {last : Value} {ss : List Stmt},
    (∀ s ∈ ss, Raises C L A (exec s) fun _ => True) →
    Raises C L A (Flow.sequence exec last ss) fun _ => True
  | _, [], _ => .pure trivial
  | _, s :: ss, h => by
    refine .bind (h s (by simp)) fun flow _ => ?_
    split
    · exact raises_sequence fun s' hs' => h s' (by simp [hs'])
    · exact .pure trivial

theorem raises_loop {test : Eval Bool} {body : Eval Flow} {step : Eval Unit}
    (htest : Raises C L A test fun _ => True) (hbody : Raises C L A body fun _ => True)
    (hstep : Raises C L A step fun _ => True) (fuel : Nat) (last : Value) :
    Raises C L A (Flow.loop test body step fuel last) fun _ => True := by
  induction fuel generalizing last with
  | zero => exact .exhausted
  | succ n ih =>
    refine .bind htest fun again _ => ?_
    split
    · refine .bind hbody fun flow _ => ?_
      split
      · exact .pure trivial
      · exact .pure trivial
      · exact .bind hstep fun _ _ => ih flow.value
    · exact .pure trivial

theorem raises_anyCase {test : Expr → Eval Bool} : ∀ {labels : List Label},
    (∀ e, .case e ∈ labels → Raises C L A (test e) fun _ => True) →
    Raises C L A (Flow.anyCase test labels) fun _ => True
  | [], _ => .pure trivial
  | .default :: labels, h => by
    rw [Flow.anyCase]
    exact raises_anyCase fun e he => h e (by simp [he])
  | .case e :: labels, h => by
    refine .bind (h e (by simp)) fun found _ => ?_
    split
    · exact .pure trivial
    · exact raises_anyCase fun e' he' => h e' (by simp [he'])

/-- The sections that are selected are some of those that are searched, or of the fallback. -/
theorem raises_select {test : Expr → Eval Bool} {P : Section → Prop} :
    ∀ {fallback : Option (List Section)} {sections : List Section},
      (∀ sec ∈ sections, ∀ e, .case e ∈ sec.labels → Raises C L A (test e) fun _ => True) →
      (∀ secs ∈ fallback, ∀ sec ∈ secs, P sec) → (∀ sec ∈ sections, P sec) →
      Raises C L A (Flow.select test fallback sections) fun chosen => ∀ sec ∈ chosen, P sec
  | none, [], _, _, _ => .pure nofun
  | some secs, [], _, hfallback, _ => .pure (hfallback secs rfl)
  | fallback, sec :: sections, htest, hfallback, hP => by
    have htail := fun sec' hsec' => htest sec' (List.mem_cons_of_mem sec hsec')
    have hPtail := fun sec' hsec' => hP sec' (List.mem_cons_of_mem sec hsec')
    refine .bind (raises_anyCase (htest sec (by simp))) fun found _ => ?_
    split
    · exact .pure hP
    · split
      · refine raises_select htail (fun secs hsecs => ?_) hPtail
        cases fallback with
        | none =>
          cases hsecs
          exact hP
        | some first => exact hfallback secs hsecs
      · exact raises_select htail hfallback hPtail

theorem raises_runSections {run : List Stmt → Eval Flow} :
    ∀ {last : Value} {sections : List Section},
      (∀ sec ∈ sections, Raises C L A (run sec.body) fun _ => True) →
      Raises C L A (Flow.runSections run last sections) fun _ => True
  | _, [], _ => .pure trivial
  | _, sec :: sections, h => by
    refine .bind (h sec (by simp)) fun flow _ => ?_
    split
    · exact raises_runSections fun sec' hsec' => h sec' (by simp [hsec'])
    · exact .pure trivial
    · exact .pure trivial

theorem raises_bindAll {eval : Expr → Eval Value} {env : Env} :
    ∀ {params : List Parameter} {slots : List (Option Value)},
      (∀ param ∈ params, ∀ e, param.default = some (.expr e) →
        Raises C L A (eval e) fun _ => True) →
      Raises C L A (Parameter.bindAll eval env params slots) fun _ => True
  | [], _, _ => .pure trivial
  | _ :: _, [], _ => .pure trivial
  | param :: params, slot :: slots, h => by
    have hrest : ∀ v, Raises C L A (do
        alter (·.define env param.name v)
        Parameter.bindAll eval env params slots) fun _ => True := fun v =>
      .bind (.alter fun _ => rfl) fun _ _ => raises_bindAll fun q hq => h q (by simp [hq])
    unfold Parameter.bindAll
    split
    · exact hrest _
    · next hdefault => exact .bind (h param (by simp) _ hdefault) fun v _ => hrest v
    · exact hrest _
    · exact hrest _

end Flow

/-! ## 5. Expressions, statements and calls

Each form places the errors that it raises itself at its own line.  A call does not touch errors
that the body of the function has placed. -/

section Evaluator

variable {C : HostFunction → Prop} {L : Nat → Prop} {n : Nat}

theorem raises_placedWrite {line fuel : Nat} (hline : L line) (r : Reference) (v : Value) :
    Raises C L L (placedAt line (write fuel r v)) fun _ => True :=
  .placedAt hline (raises_write (.inl rfl) r v)

theorem raises_stepLocation {line fuel : Nat} (hline : L line) (op : StepOp) (target : Reference) :
    Raises C L L (stepLocation fuel op line target) fun _ => True :=
  .bind .look fun _ _ => .bind .look fun _ _ => .bind (raises_placedWrite hline _ _)
    fun _ _ => .pure trivial

variable [Host]

/-- With this much fuel, code on the lines in `L` fails on these lines, and a call may also fail
without a line. -/
structure EvaluatorRaises (C : HostFunction → Prop) (L : Nat → Prop) (n : Nat) : Prop where
  eval : ∀ env e, e.All (·.RaisesOn L) → Raises C L L (Eval.eval n env e) fun _ => True
  locate : ∀ env e, e.All (·.RaisesOn L) → Raises C L L (Eval.locate n env e) fun _ => True
  exec : ∀ env s, s.All (·.RaisesOn L) → Raises C L L (Eval.exec n env s) fun _ => True
  invoke : ∀ f args, Raises C L (OrUnplaced L) (Eval.invoke n f args) fun _ => True

theorem EvaluatorRaises.eval_binary (ih : EvaluatorRaises C L n) (env : Env) {op : BinaryOp}
    {l r : Expr} {pos : Position} (h : (Expr.binary op l r pos).All (·.RaisesOn L)) :
    Raises C L L (Eval.eval (n + 1) env (.binary op l r pos)) fun _ => True := by
  obtain ⟨hroot, hl, hr⟩ := Expr.all_binary.1 h
  have hleft := ih.eval env l hl
  have hright := ih.eval env r hr
  cases op with
  | and =>
    refine .bind hleft fun v _ => .bind .look fun b _ => ?_
    split
    · exact .bind hright fun _ _ => .bind .look fun _ _ => .pure trivial
    · exact .pure trivial
  | or =>
    refine .bind hleft fun v _ => .bind .look fun b _ => ?_
    split
    · exact .pure trivial
    · exact .bind hright fun _ _ => .bind .look fun _ _ => .pure trivial
  -- From here on the node itself can fail, and it stands on a line in `L`.
  | assign =>
    refine .bind (ih.locate env l hl) fun target _ => .bind hright fun v _ => ?_
    exact .bind (raises_placedWrite (hroot rfl) target v) fun _ _ => .pure trivial
  | update op =>
    refine .bind (ih.locate env l hl) fun target _ => .bind .look fun current _ =>
      .bind hright fun w _ => ?_
    refine .bind .look fun v _ => ?_
    exact .bind (raises_placedWrite (hroot rfl) target v) fun _ _ => .pure trivial
  | arith op | relation op | spaceship => exact .bind hleft fun _ _ => .bind hright fun _ _ => .look

theorem EvaluatorRaises.eval_unary (ih : EvaluatorRaises C L n) (env : Env) {op : UnaryOp}
    {e : Expr} {pos : Position} (h : (Expr.unary op e pos).All (·.RaisesOn L)) :
    Raises C L L (Eval.eval (n + 1) env (.unary op e pos)) fun _ => True := by
  obtain ⟨hroot, he⟩ := Expr.all_unary.1 h
  cases op with
  | plus | neg | not | bitNot => exact .bind (ih.eval env e he) fun _ _ => .look
  | step op =>
    refine .bind (ih.locate env e he) fun target _ => ?_
    exact .bind (raises_stepLocation (hroot rfl) op target) fun _ _ => .pure trivial
  | ref =>
    refine .bind (ih.locate env e he) fun target _ => ?_
    split
    · exact .pure trivial
    · exact .pure trivial

/-- The call places what its callee left without a line. -/
theorem EvaluatorRaises.eval_call (ih : EvaluatorRaises C L n) (env : Env) {callee : Expr}
    {args : List Arg} {pos : Position} (h : (Expr.call callee args pos).All (·.RaisesOn L)) :
    Raises C L L (Eval.eval (n + 1) env (.call callee args pos)) fun _ => True := by
  obtain ⟨hroot, hcallee, hargs⟩ := Expr.all_call.1 h
  refine .bind (ih.eval env callee hcallee) fun v _ => ?_
  split
  · refine .bind (.forEach fun arg harg => ?_) fun vs _ => .placedAt (hroot rfl) (ih.invoke _ vs)
    obtain ⟨name, e⟩ := arg
    exact .bind (ih.eval env e (hargs name e harg)) fun _ _ => .pure trivial
  · exact .failAt (hroot rfl)

theorem EvaluatorRaises.eval_succ (ih : EvaluatorRaises C L n) (env : Env) (e : Expr)
    (h : e.All (·.RaisesOn L)) :
    Raises C L L (Eval.eval (n + 1) env e) fun _ => True := by
  cases e with
  | bool b pos | int i pos | float x pos | str s pos => exact .pure trivial
  | interpolation parts pos =>
    refine .bind (.forEach fun part hpart => ?_) fun _ _ => .pure trivial
    cases part with
    | text t => exact .pure trivial
    | expr e =>
      exact .bind (ih.eval env e ((Expr.all_interpolation.1 h).2 e hpart)) fun _ _ => .look
  | list items pos =>
    refine .bind (.forEach fun e he => ih.eval env e ((Expr.all_list.1 h).2 e he)) fun vs _ => ?_
    exact .bind (.fresh fun _ hσ => hσ.of_functions_eq rfl) fun _ _ => .pure trivial
  | var x pos => exact .look
  | unary op e pos => exact ih.eval_unary env h
  | trailing op e pos =>
    obtain ⟨hroot, he⟩ := Expr.all_trailing.1 h
    refine .bind (ih.locate env e he) fun target _ => ?_
    exact .bind (raises_stepLocation (hroot rfl) op target) fun _ _ => .pure trivial
  | binary op l r pos => exact ih.eval_binary env h
  | ternary c t f pos =>
    obtain ⟨-, hc, ht, hf⟩ := Expr.all_ternary.1 h
    refine .bind (ih.eval env c hc) fun v _ => .bind .look fun b _ => ?_
    split
    · exact ih.eval env t ht
    · exact ih.eval env f hf
  | call callee args pos => exact ih.eval_call env h
  | subscript target index pos =>
    obtain ⟨-, htarget, hindex⟩ := Expr.all_subscript.1 h
    exact .bind (ih.eval env target htarget) fun _ _ => .bind (ih.eval env index hindex)
      fun _ _ => .look

theorem EvaluatorRaises.locate_succ (ih : EvaluatorRaises C L n) (env : Env) (e : Expr)
    (h : e.All (·.RaisesOn L)) :
    Raises C L L (Eval.locate (n + 1) env e) fun _ => True := by
  cases e with
  | var x pos => exact .pure trivial
  | subscript target index pos =>
    obtain ⟨-, htarget, hindex⟩ := Expr.all_subscript.1 h
    exact .bind (ih.locate env target htarget) fun _ _ => .bind (ih.eval env index hindex)
      fun _ _ => .pure trivial
  | ternary c t f pos =>
    obtain ⟨-, hc, ht, hf⟩ := Expr.all_ternary.1 h
    refine .bind (ih.eval env c hc) fun v _ => .bind .look fun b _ => ?_
    split
    · exact ih.locate env t ht
    · exact ih.locate env f hf
  | bool _ _ | int _ _ | float _ _ | str _ _ | interpolation _ _ | list _ _ | unary _ _ _
  | trailing _ _ _ | binary _ _ _ _ | call _ _ _ =>
    exact .bind (ih.eval env _ h) fun _ _ => .pure trivial

/-- The condition of a branch or a loop. -/
theorem EvaluatorRaises.condition (ih : EvaluatorRaises C L n) (env : Env) {e : Expr}
    (h : e.All (·.RaisesOn L)) (f : Value → Store → Option Bool) :
    Raises C L L (do let v ← Eval.eval n env e; look (f v)) fun _ => True :=
  .bind (ih.eval env e h) fun _ _ => .look

theorem EvaluatorRaises.exec_switch (ih : EvaluatorRaises C L n) (env : Env) {subject : Expr}
    {sections : List Section} {pos : Position}
    (h : (Stmt.switch subject sections pos).All (·.RaisesOn L)) :
    Raises C L L (Eval.exec (n + 1) env (.switch subject sections pos)) fun _ => True := by
  obtain ⟨hsubject, hsections⟩ := Stmt.all_switch.1 h
  refine .bind (ih.eval env subject hsubject) fun v _ => ?_
  refine .bind (raises_select (P := fun sec => ∀ s ∈ sec.body, s.All (·.RaisesOn L))
    (fun sec hsec e he => ih.condition env ((hsections sec hsec).1 e he) _) nofun
    fun sec hsec => (hsections sec hsec).2) fun chosen hchosen => ?_
  exact raises_runSections fun sec hsec => raises_sequence fun s hs =>
    ih.exec env s (hchosen sec hsec s hs)

/-- What is left of a counting loop after its first clause. -/
theorem EvaluatorRaises.forLoop_rest (ih : EvaluatorRaises C L n) (env : Env) (c step : Option Expr)
    (body : Stmt) :
    (∀ e ∈ c, e.All (·.RaisesOn L)) → (∀ e ∈ step, e.All (·.RaisesOn L)) → body.All (·.RaisesOn L) →
    Raises C L L (Flow.loop (match c with
        | some e => do
          let v ← Eval.eval n env e
          look (·.toBool n v)
        | none => Pure.pure true) (Eval.exec n env body) (match step with
        | some e => do
          let _ ← Eval.eval n env e
        | none => Pure.pure ()) n .invalid) fun _ => True := by
  intro hc hstep hbody
  refine raises_loop ?_ (ih.exec env body hbody) ?_ n .invalid
  · cases c with
    | none => exact .pure trivial
    | some e => exact ih.condition env (hc e rfl) _
  · cases step with
    | none => exact .pure trivial
    | some e => exact .bind (ih.eval env e (hstep e rfl)) fun _ _ => .pure trivial

theorem EvaluatorRaises.exec_succ (ih : EvaluatorRaises C L n) (env : Env) (s : Stmt)
    (h : s.All (·.RaisesOn L)) :
    Raises C L L (Eval.exec (n + 1) env s) fun _ => True := by
  cases s with
  | block body pos =>
    refine .bind (.fresh fun _ hσ => hσ.of_functions_eq rfl) fun inner _ => ?_
    exact raises_sequence fun s hs => ih.exec inner s (Stmt.all_block.1 h s hs)
  | ifElse c t f pos =>
    obtain ⟨hc, ht, hf⟩ := Stmt.all_ifElse.1 h
    refine .bind (ih.eval env c hc) fun v _ => .bind .look fun b _ => ?_
    split
    · exact ih.exec env t ht
    · split
      · next s => exact ih.exec env s (hf s rfl)
      · exact .pure trivial
  | switch subject sections pos => exact ih.exec_switch env h
  | whileLoop c body pos =>
    obtain ⟨hc, hbody⟩ := Stmt.all_whileLoop.1 h
    exact raises_loop (ih.condition env hc _) (ih.exec env body hbody) (.pure trivial) n .invalid
  | forLoop init c step body pos =>
    obtain ⟨hinit, hc, hstep, hbody⟩ := Stmt.all_forLoop.1 h
    cases init with
    | none => exact ih.forLoop_rest env c step body hc hstep hbody
    | some e =>
      exact .bind (ih.eval env e (hinit e rfl)) fun _ _ =>
        ih.forLoop_rest env c step body hc hstep hbody
  | breakLoop pos | continueLoop pos => exact .pure trivial
  | returnValue e pos =>
    cases e with
    | none => exact .pure trivial
    | some e => exact .bind (ih.eval env e (Expr.all_option.1 h e rfl)) fun _ _ => .pure trivial
  | expr e => exact .bind (ih.eval env e h) fun _ _ => .pure trivial
  | declare decl =>
    refine .bind (.fresh fun _ hσ => hσ.newFunction (Function.ofDecl_raisesOn h env)) fun f _ => ?_
    exact .bind (.alter fun _ => rfl) fun _ _ => .pure trivial

/-- Whether a call may fail without a line depends on what is called: a declared function fails on
lines of its code. -/
theorem EvaluatorRaises.invoke_succ (hC : Host.LeavesLines C) (ih : EvaluatorRaises C L n)
    (f : FunctionId) (args : List Argument) :
    Raises C L (OrUnplaced L) (Eval.invoke (n + 1) f args) fun _ => True := by
  refine .bind (Q := fun fn : Function => fn.RaisesOn C L) (.view fun σ hσ => hσ f) fun fn hfn => ?_
  simp only []
  split
  · next hbody => exact raises_run hC (.inl rfl) ih.invoke fun _ => hfn.hosted_of_body hbody
  · next hbody => exact raises_run hC (.inl rfl) ih.invoke fun _ => hfn.hosted_of_body hbody
  · next statements closure hbody =>
    refine .weaken ?_ fun line hline => .inr hline
    refine .bind (.fresh fun _ hσ => hσ.of_functions_eq rfl) fun env _ => ?_
    refine .bind (raises_bindAll fun q hq e he => ih.eval env e (hfn.default q hq e he))
      fun _ _ => ?_
    exact .bind (raises_sequence fun s hs => ih.exec env s (hfn.script _ _ hbody s hs))
      fun _ _ => .pure trivial
  · exact .bind (ih.invoke _ _) fun _ _ => ih.invoke _ _
  · exact .bind (Q := fun _ => True) (.view fun _ _ => trivial) fun _ _ => ih.invoke _ _

/-- By induction on fuel: the functions of the evaluator call each other with less. -/
theorem evaluatorRaises (hC : Host.LeavesLines C) (L : Nat → Prop) (n : Nat) :
    EvaluatorRaises C L n := by
  induction n with
  | zero =>
    exact ⟨fun _ _ _ => .exhausted, fun _ _ _ => .exhausted, fun _ _ _ => .exhausted,
      fun _ _ => .exhausted⟩
  | succ n ih => exact ⟨ih.eval_succ, ih.locate_succ, ih.exec_succ, ih.invoke_succ hC⟩

theorem raises_execProgram (hC : Host.LeavesLines C) (fuel : Nat) (env : Env) {program : Program}
    (h : ∀ s ∈ program, s.All (·.RaisesOn L)) :
    Raises C L L (execProgram fuel env program) fun _ => True :=
  .bind (raises_sequence fun s hs => (evaluatorRaises hC L fuel).exec env s (h s hs))
    fun _ _ => .pure trivial

end Evaluator
end Eval
end Scriptlet
