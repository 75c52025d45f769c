import Scriptlet.Interpreter
import Scriptlet.Proofs.Confinement

/-!
# Evaluation is confined by every policy

Code that runs in an active environment keeps the policy, whatever the code is.  The list walks,
loops and section searches keep it if their parts do, so that the four functions of the evaluator
need one induction on their fuel.  In particular, every computation leaves a closed store closed.

The functions of the evaluator are those of §4.8 of the specification.
-/

namespace Scriptlet

/-! ## 1. Arguments

Matching moves values around and makes none, so what holds of all arguments holds of all slots. -/

namespace Argument

variable {P : Value → Prop}

/-- What is taken was an argument, and what is left were arguments. -/
theorem mem_of_takeFirst? {q : Argument → Bool} :
    ∀ {args : List Argument} {v : Value} {left : List Argument},
    takeFirst? q args = some (v, left) → (∃ a ∈ args, a.value = v) ∧ ∀ a ∈ left, a ∈ args
  | a :: as, v, left, h => by
    unfold takeFirst? at h
    split at h
    · cases h
      exact ⟨⟨a, by simp, rfl⟩, fun b hb => List.mem_cons_of_mem a hb⟩
    · obtain ⟨⟨w, more⟩, hw, heq⟩ := Option.map_eq_some_iff.1 h
      cases heq
      obtain ⟨⟨b, hb, hbv⟩, hmore⟩ := mem_of_takeFirst? hw
      refine ⟨⟨b, List.mem_cons_of_mem a hb, hbv⟩, fun c hc => ?_⟩
      rcases List.mem_cons.1 hc with rfl | hc
      · simp
      · exact List.mem_cons_of_mem a (hmore c hc)

theorem bindPositional_all :
    ∀ (params : List String) {args : List Argument}, (∀ a ∈ args, P a.value) →
    ∀ v, some v ∈ bindPositional params args → P v
  | [], _, _, v, hv => by cases hv
  | _ :: ps, [], h, v, hv => by
    rcases List.mem_cons.1 hv with heq | hv
    · cases heq
    · exact bindPositional_all ps h v hv
  | _ :: ps, a :: as, h, v, hv => by
    rcases List.mem_cons.1 hv with heq | hv
    · cases heq
      exact h a (by simp)
    · exact bindPositional_all ps (fun b hb => h b (by simp [hb])) v hv

theorem bindNamed_all : ∀ (params : List String) {args : List Argument}, (∀ a ∈ args, P a.value) →
    (∀ v, some v ∈ (bindNamed params args).1 → P v) ∧ ∀ a ∈ (bindNamed params args).2, P a.value
  | [], _, h => ⟨fun _ hv => (by cases hv), h⟩
  | p :: ps, args, h => by
    unfold bindNamed
    split
    · next v rest htake =>
      obtain ⟨⟨a, ha, hav⟩, hrest⟩ := mem_of_takeFirst? htake
      obtain ⟨hslots, hleft⟩ := bindNamed_all ps fun b hb => h b (hrest b hb)
      refine ⟨fun w hw => ?_, hleft⟩
      rcases List.mem_cons.1 hw with heq | hw
      · cases heq
        exact hav ▸ h a ha
      · exact hslots w hw
    · obtain ⟨hslots, hleft⟩ := bindNamed_all ps h
      refine ⟨fun w hw => ?_, hleft⟩
      rcases List.mem_cons.1 hw with heq | hw
      · cases heq
      · exact hslots w hw

theorem bindLeft_all (params : List String) (slots : List (Option Value)) (args : List Argument)
    (hslots : ∀ v, some v ∈ slots → P v) (hargs : ∀ a ∈ args, P a.value) :
    ∀ v, some v ∈ bindLeft params slots args → P v := by
  fun_induction bindLeft params slots args with
  | case1 p ps v slots args ih =>
    intro w hw
    rcases List.mem_cons.1 hw with heq | hw
    · exact hslots w (by simp [heq])
    · exact ih (fun u hu => hslots u (by simp [hu])) hargs w hw
  | case2 p ps slots args v left htake ih =>
    obtain ⟨⟨a, ha, hav⟩, hleft⟩ := mem_of_takeFirst? htake
    intro w hw
    rcases List.mem_cons.1 hw with heq | hw
    · cases heq
      exact hav ▸ hargs a ha
    · exact ih (fun u hu => hslots u (by simp [hu])) (fun b hb => hargs b (hleft b hb)) w hw
  | case3 p ps slots args htake ih =>
    intro w hw
    rcases List.mem_cons.1 hw with heq | hw
    · cases heq
    · exact ih (fun u hu => hslots u (by simp [hu])) hargs w hw
  | case4 => exact hslots

/-- Every parameter gets the value of an argument, or nothing. -/
theorem bind_all (params : List String) {args : List Argument} (hargs : ∀ a ∈ args, P a.value) :
    ∀ v, some v ∈ bind params args → P v := by
  unfold bind
  split
  · exact bindPositional_all params hargs
  · obtain ⟨hslots, hleft⟩ := bindNamed_all params hargs
    exact bindLeft_all params _ _ hslots hleft

end Argument

namespace Eval

/-! ## 2. Control flow -/

section Flow

variable {p : Policy} {k : Extent}

def FlowConfined (p : Policy) (k : Extent) (m : Eval Flow) : Prop :=
  Keeps p k m fun l flow => flow.value.Within p l

/-- The statements of a list run in stores that grow, so the rule is stated for every larger
extent. -/
theorem flowConfined_sequence {exec : Stmt → Eval Flow} (hexec : ∀ s, FlowConfined p k (exec s)) :
    ∀ {l : Extent} {last : Value} (ss : List Stmt), k ≤ l → last.Within p l →
      FlowConfined p l (Flow.sequence exec last ss)
  | l, last, [], _, hlast => Keeps.pure fun _ hm => hlast.mono hm
  | l, last, s :: ss, hkl, _ => by
    refine Keeps.bind ((hexec s).grow hkl) fun m flow hm hflow => ?_
    split
    · exact flowConfined_sequence hexec ss (Extent.le_trans hkl hm) hflow
    · exact Keeps.pure fun _ hn => hflow.mono hn

/-- A loop keeps the policy if one round of it does. -/
theorem flowConfined_loop {test : Eval Bool} {body : Eval Flow} {step : Eval Unit}
    (htest : Keeps p k test fun _ _ => True) (hbody : FlowConfined p k body)
    (hstep : Keeps p k step fun _ _ => True) :
    ∀ {l : Extent} {last : Value} (fuel : Nat), k ≤ l → last.Within p l →
      FlowConfined p l (Flow.loop test body step fuel last)
  | l, last, 0, _, _ => Keeps.exhausted
  | l, last, n + 1, hkl, hlast => by
    refine Keeps.bind (htest.grow hkl) fun m again hm _ => ?_
    have hkm := Extent.le_trans hkl hm
    split
    · refine Keeps.bind (hbody.grow hkm) fun m₁ flow hm₁ hflow => ?_
      have hkm₁ := Extent.le_trans hkm hm₁
      split
      · exact Keeps.pure fun _ hn => hflow.mono hn
      · exact Keeps.pure fun _ hn => hflow.mono hn
      · refine Keeps.bind (hstep.grow hkm₁) fun m₂ _ hm₂ _ => ?_
        exact flowConfined_loop htest hbody hstep n (Extent.le_trans hkm₁ hm₂) (hflow.mono hm₂)
    · exact Keeps.pure fun _ hn => hlast.mono (Extent.le_trans hm hn)

theorem keeps_anyCase {test : Expr → Eval Bool} (htest : ∀ e, Keeps p k (test e) fun _ _ => True) :
    ∀ {l : Extent} (labels : List Label), k ≤ l →
    Keeps p l (Flow.anyCase test labels) fun _ _ => True
  | l, [], _ => Keeps.pure fun _ _ => trivial
  | l, .default :: labels, hkl => keeps_anyCase htest labels hkl
  | l, .case e :: labels, hkl => by
    refine Keeps.bind ((htest e).grow hkl) fun m found hm _ => ?_
    split
    · exact Keeps.pure fun _ _ => trivial
    · exact keeps_anyCase htest labels (Extent.le_trans hkl hm)

theorem keeps_select {test : Expr → Eval Bool} (htest : ∀ e, Keeps p k (test e) fun _ _ => True) :
    ∀ {l : Extent} (fallback : Option (List Section)) (sections : List Section), k ≤ l →
      Keeps p l (Flow.select test fallback sections) fun _ _ => True
  | l, fallback, [], _ => Keeps.pure fun _ _ => trivial
  | l, fallback, s :: sections, hkl => by
    refine Keeps.bind (keeps_anyCase htest s.labels hkl) fun m found hm _ => ?_
    have hkm := Extent.le_trans hkl hm
    split
    · exact Keeps.pure fun _ _ => trivial
    · split
      · exact keeps_select htest _ sections hkm
      · exact keeps_select htest _ sections hkm

theorem flowConfined_runSections {run : List Stmt → Eval Flow}
    (hrun : ∀ body, FlowConfined p k (run body)) :
    ∀ {l : Extent} {last : Value} (sections : List Section), k ≤ l → last.Within p l →
      FlowConfined p l (Flow.runSections run last sections)
  | l, last, [], _, hlast => Keeps.pure fun _ hm => hlast.mono hm
  | l, last, s :: sections, hkl, _ => by
    refine Keeps.bind ((hrun s.body).grow hkl) fun m flow hm hflow => ?_
    split
    · exact flowConfined_runSections hrun sections (Extent.le_trans hkl hm) hflow
    · exact Keeps.pure fun _ hn => hflow.mono hn
    · exact Keeps.pure fun _ hn => hflow.mono hn

end Flow

/-! ## 3. Parameters -/

section Parameters

variable {p : Policy} {k : Extent}

/-- In an active environment any name may be bound. -/
theorem keeps_define {env : Env} (henv : p.Active k env) {x : String} {v : Value}
    (hv : v.Within p k) :
    Keeps p k (alter (·.define env x v)) fun _ _ => True :=
  Keeps.alter fun _ hσ hk =>
    ⟨hσ.define (hv.mono hk), Store.follows_define v (.inr (henv.mono hk x)), trivial⟩

/-- A new scope is active, wherever it is entered from. -/
theorem keeps_enter (env : Env) : Keeps p k (fresh (·.enter env)) fun l inner => p.Active l inner :=
  Keeps.fresh fun σ hσ _ => ⟨hσ.newScope _, Store.follows_newScope p σ _, hσ.active_enter env⟩

/-- A declared function holds code only: its defaults are expressions. -/
theorem ofDecl_within (decl : FnDecl) (env : Env) : (Function.ofDecl decl env).Within p k := by
  refine ⟨fun param hparam v hv => ?_, fun _ _ hv => by cases hv⟩
  obtain ⟨q, -, rfl⟩ := List.mem_map.1 hparam
  simp at hv

/-- Parameters are bound to arguments, to values of defaults that the function holds, or to values
that its code computes. -/
theorem keeps_bindAll {eval : Expr → Eval Value} {env : Env} (henv : p.Active k env)
    (heval : ∀ e, Confined p k (eval e)) :
    ∀ {l : Extent} (params : List Parameter) (slots : List (Option Value)), k ≤ l →
      (∀ param ∈ params, ∀ v, param.default = some (.value v) → v.Within p l) →
      (∀ v, some v ∈ slots → v.Within p l) →
      Keeps p l (Parameter.bindAll eval env params slots) fun _ _ => True
  | l, [], _, _, _, _ => Keeps.pure fun _ _ => trivial
  | l, _ :: _, [], _, _, _ => Keeps.pure fun _ _ => trivial
  | l, param :: params, slot :: slots, hkl, hparams, hslots => by
    have hrest : ∀ m v, l ≤ m → v.Within p m → Keeps p m (do
        alter (·.define env param.name v)
        Parameter.bindAll eval env params slots) fun _ _ => True := by
      intro m v hm hv
      refine Keeps.bind (keeps_define (henv.mono (Extent.le_trans hkl hm)) hv) fun m' _ hm' _ => ?_
      have hle := Extent.le_trans hm hm'
      exact keeps_bindAll henv heval params slots (Extent.le_trans hkl hle)
        (fun q hq w hw => (hparams q (by simp [hq]) w hw).mono hle)
        fun w hw => (hslots w (by simp [hw])).mono hle
    unfold Parameter.bindAll
    split
    · exact hrest l _ (Extent.le_refl l) (hslots _ (by simp))
    · exact Keeps.bind ((heval _).grow hkl) fun m v hm hv => hrest m v hm hv
    · next hdefault => exact hrest l _ (Extent.le_refl l) (hparams param (by simp) _ hdefault)
    · exact hrest l _ (Extent.le_refl l) trivial

/-- The values that native code gets. -/
theorem within_valueOr {params : List Parameter} {slots : List (Option Value)}
    (hparams : ∀ param ∈ params, ∀ v, param.default = some (.value v) → v.Within p k)
    (hslots : ∀ v, some v ∈ slots → v.Within p k) :
    ∀ v ∈ List.zipWith Parameter.valueOr params slots, v.Within p k := by
  intro v hv
  obtain ⟨i, hi, rfl⟩ := List.getElem_of_mem hv
  rw [List.getElem_zipWith]
  unfold Parameter.valueOr
  split
  · next w hw => exact hslots w (hw ▸ List.getElem_mem _)
  · split
    · next w hw => exact hparams _ (List.getElem_mem _) w hw
    · trivial

end Parameters

/-! ## 4. Expressions, statements and calls

Each form of expression and statement is a chain of `bind`s.  The extents along a chain grow, and
what was known of an earlier value is carried on by `mono`. -/

section Evaluator

variable {p : Policy} {k : Extent} {n : Nat}

/-- A reading that gives scalars. -/
theorem confined_look {f : Store → Option Value} (h : ∀ σ v, f σ = some v → v.isScalar = true) :
    Confined p k (look f) :=
  Keeps.look fun σ v _ _ hv => Value.within_of_isScalar (h σ v hv)

theorem keeps_stepLocation {fuel line : Nat} {op : StepOp} {target : Reference}
    (ht : target.Within p k) :
    Keeps p k (stepLocation fuel op line target) fun l vs => vs.1.Within p l ∧ vs.2.Within p l := by
  refine Keeps.bind (keeps_read ht) fun l₁ old hl₁ hold => ?_
  refine Keeps.bind (Q := fun l (new : Value) => new.Within p l)
    (confined_look fun _ _ => Store.isScalar_of_step) fun l₂ new hl₂ hnew => ?_
  refine Keeps.bind (Keeps.placedAt (keeps_write (ht.mono (Extent.le_trans hl₁ hl₂)) hnew))
    fun l₃ _ hl₃ _ => ?_
  refine Keeps.pure fun m hm => ?_
  have hle := Extent.le_trans hl₃ hm
  exact ⟨hold.mono (Extent.le_trans hl₂ hle), hnew.mono hle⟩

/-- The condition of a branch. -/
theorem keeps_condition {m : Eval Value} (hm : Confined p k m) {f : Value → Store → Option Bool} :
    Keeps p k (do let v ← m; look (f v)) fun _ _ => True :=
  Keeps.bind hm fun _ _ _ _ => Keeps.test

theorem keeps_arguments {eval : Expr → Eval Value} (heval : ∀ e, Confined p k (eval e))
    (args : List Arg) :
    Keeps p k (arguments eval args) fun l vs => ∀ a ∈ vs, a.value.Within p l := by
  refine Keeps.forEach (fun hlm h => h.mono hlm) fun a _ => ?_
  obtain ⟨name, e⟩ := a
  exact Keeps.bind (heval e) fun l v _ hv => Keeps.pure fun m hm => hv.mono hm

variable [Host]

structure EvaluatorConfined (p : Policy) (n : Nat) : Prop where
  eval : ∀ k {env}, p.Active k env → ∀ e, Confined p k (Eval.eval n env e)
  locate : ∀ k {env}, p.Active k env → ∀ e, Keeps p k (Eval.locate n env e) fun l r => r.Within p l
  exec : ∀ k {env}, p.Active k env → ∀ s, FlowConfined p k (Eval.exec n env s)
  invoke : CallConfined p (Eval.invoke n)

theorem EvaluatorConfined.eval_binary (ih : EvaluatorConfined p n) (k : Extent) {env : Env}
    (henv : p.Active k env) (op : BinaryOp) (l r : Expr) (pos : Position) :
    Confined p k (Eval.eval (n + 1) env (.binary op l r pos)) := by
  have heval := fun e => ih.eval k henv e
  cases op with
  | and =>
    refine Keeps.bind (heval l) fun k₁ v hk₁ _ => Keeps.bind Keeps.test fun k₂ b hk₂ _ => ?_
    split
    · refine Keeps.bind ((heval r).grow (Extent.le_trans hk₁ hk₂)) fun _ _ _ _ => ?_
      exact Keeps.bind Keeps.test fun _ _ _ _ => Confined.scalar rfl
    · exact Confined.scalar rfl
  | or =>
    refine Keeps.bind (heval l) fun k₁ v hk₁ _ => Keeps.bind Keeps.test fun k₂ b hk₂ _ => ?_
    split
    · exact Confined.scalar rfl
    · refine Keeps.bind ((heval r).grow (Extent.le_trans hk₁ hk₂)) fun _ _ _ _ => ?_
      exact Keeps.bind Keeps.test fun _ _ _ _ => Confined.scalar rfl
  -- The location was found in a smaller store than the one that is written to.
  | assign =>
    refine Keeps.bind (ih.locate k henv l) fun k₁ target hk₁ ht => ?_
    refine Keeps.bind ((heval r).grow hk₁) fun k₂ v hk₂ hv => ?_
    refine Keeps.bind (Keeps.placedAt (keeps_write (ht.mono hk₂) hv)) fun _ _ hk₃ _ => ?_
    exact Keeps.pure fun _ hm => hv.mono (Extent.le_trans hk₃ hm)
  | update op =>
    refine Keeps.bind (ih.locate k henv l) fun k₁ target hk₁ ht => ?_
    refine Keeps.bind (keeps_read ht) fun k₂ current hk₂ _ => ?_
    refine Keeps.bind ((heval r).grow (Extent.le_trans hk₁ hk₂)) fun k₃ w hk₃ _ => ?_
    refine Keeps.bind (confined_look fun _ _ => Store.isScalar_of_arith) fun k₄ v hk₄ hv => ?_
    have hle := Extent.le_trans hk₂ (Extent.le_trans hk₃ hk₄)
    refine Keeps.bind (Keeps.placedAt (keeps_write (ht.mono hle) hv)) fun _ _ hk₅ _ => ?_
    exact Keeps.pure fun _ hm => hv.mono (Extent.le_trans hk₅ hm)
  | arith op =>
    refine Keeps.bind (heval l) fun k₁ _ hk₁ _ => Keeps.bind ((heval r).grow hk₁) fun _ _ _ _ => ?_
    exact confined_look fun _ _ => Store.isScalar_of_arith
  | relation op | spaceship =>
    refine Keeps.bind (heval l) fun k₁ _ hk₁ _ => Keeps.bind ((heval r).grow hk₁) fun _ _ _ _ => ?_
    exact confined_look fun _ _ => Store.isScalar_of_map fun _ => rfl

/-- The step of the induction for expressions; binary operators have a lemma of their own. -/
theorem EvaluatorConfined.eval_succ (ih : EvaluatorConfined p n) (k : Extent) {env : Env}
    (henv : p.Active k env) (e : Expr) : Confined p k (Eval.eval (n + 1) env e) := by
  have heval := fun e => ih.eval k henv e
  cases e with
  | bool b pos | int i pos | float x pos | str s pos => exact Confined.scalar rfl
  | interpolation parts pos =>
    refine Keeps.bind (Keeps.forEach (R := fun _ _ => True) (fun _ h => h) fun part _ => ?_)
      fun _ _ _ _ => Confined.scalar rfl
    cases part with
    | text t => exact Keeps.pure fun _ _ => trivial
    | expr e => exact Keeps.bind (heval e) fun _ _ _ _ => Keeps.test
  | list items pos =>
    refine Keeps.bind (Keeps.forEach (fun hlm h => h.mono hlm) fun e _ => heval e)
      fun l vs _ hvs => ?_
    refine Keeps.bind (keeps_newArray fun v hv => hvs v (by simpa using hv)) fun m a _ ha => ?_
    exact Keeps.pure fun _ hm => p.array_mono hm.1 ha
  | var x pos =>
    refine Keeps.look fun σ v hσ _ hv => hσ.resolve ?_ hv
    exact within_getD fun w hw => hσ.lookup hw
  | unary op e pos =>
    cases op with
    | plus | neg =>
      refine Keeps.bind (heval e) fun _ _ _ _ => confined_look fun _ _ => ?_
      exact Store.isScalar_of_map fun _ => Value.isScalar_ofNumber _
    | not | bitNot =>
      refine Keeps.bind (heval e) fun _ _ _ _ => confined_look fun _ _ => ?_
      exact Store.isScalar_of_map fun _ => rfl
    | step op =>
      refine Keeps.bind (ih.locate k henv e) fun l r _ hr => ?_
      refine Keeps.bind (keeps_stepLocation hr) fun m vs _ hvs => ?_
      exact Keeps.pure fun _ hm => hvs.2.mono hm
    | ref =>
      refine Keeps.bind (ih.locate k henv e) fun l r _ hr => ?_
      split
      · exact Keeps.pure fun _ hm => Value.Within.mono hm hr
      · exact Keeps.pure fun _ hm => Reference.Within.mono hm hr
  | trailing op e pos =>
    refine Keeps.bind (ih.locate k henv e) fun l r _ hr => ?_
    refine Keeps.bind (keeps_stepLocation hr) fun m vs _ hvs => ?_
    exact Keeps.pure fun _ hm => hvs.1.mono hm
  | binary op l r pos => exact ih.eval_binary k henv op l r pos
  | ternary c t f pos =>
    refine Keeps.bind (heval c) fun l₁ v hl₁ _ => Keeps.bind Keeps.test fun l₂ b hl₂ _ => ?_
    have hle := Extent.le_trans hl₁ hl₂
    split
    · exact (heval t).grow hle
    · exact (heval f).grow hle
  | call callee args pos =>
    refine Keeps.bind (heval callee) fun l v hl _ => ?_
    split
    · refine Keeps.bind (keeps_arguments (fun e => (heval e).grow hl) args) fun m vs _ hvs => ?_
      exact Keeps.placedAt (ih.invoke m _ vs hvs)
    · exact Keeps.failAt
  | subscript target index pos =>
    refine Keeps.bind (heval target) fun l₁ v hl₁ hv => ?_
    refine Keeps.bind ((heval index).grow hl₁) fun l₂ i hl₂ _ => ?_
    exact Keeps.look fun σ w hσ hk hw => hσ.subscript (hv.mono (Extent.le_trans hl₂ hk)) hw

theorem EvaluatorConfined.locate_succ (ih : EvaluatorConfined p n) (k : Extent) {env : Env}
    (henv : p.Active k env) (e : Expr) :
    Keeps p k (Eval.locate (n + 1) env e) fun l r => r.Within p l := by
  cases e with
  | var x pos => exact Keeps.pure fun _ hl => henv.mono hl x
  | subscript target index pos =>
    refine Keeps.bind (ih.locate k henv target) fun l₁ base hl₁ hbase => ?_
    refine Keeps.bind ((ih.eval k henv index).grow hl₁) fun l₂ i hl₂ hi => ?_
    exact Keeps.pure fun m hm => ⟨hbase.mono (Extent.le_trans hl₂ hm), hi.mono hm⟩
  | ternary c t f pos =>
    refine Keeps.bind (ih.eval k henv c) fun l₁ v hl₁ _ => Keeps.bind Keeps.test
      fun l₂ b hl₂ _ => ?_
    have hle := Extent.le_trans hl₁ hl₂
    split
    · exact (ih.locate k henv t).grow hle
    · exact (ih.locate k henv f).grow hle
  | bool _ _ | int _ _ | float _ _ | str _ _ | interpolation _ _ | list _ _ | unary _ _ _
  | trailing _ _ _ | binary _ _ _ _ | call _ _ _ =>
    exact Keeps.bind (ih.eval k henv _) fun l v _ hv => Keeps.pure fun m hm =>
      Value.Within.mono hm hv

/-- A block runs in a scope of its own, so the environment around it need not be active. -/
theorem EvaluatorConfined.exec_block (ih : EvaluatorConfined p n) (k : Extent) (env : Env)
    (body : List Stmt) (pos : Position) :
    FlowConfined p k (Eval.exec (n + 1) env (.block body pos)) := by
  refine Keeps.bind (keeps_enter env) fun l inner _ hinner => ?_
  exact flowConfined_sequence (fun s => ih.exec l hinner s) body (Extent.le_refl l) trivial

/-- What is left of a counting loop after its first clause. -/
theorem EvaluatorConfined.forLoop_rest (ih : EvaluatorConfined p n) (k : Extent) {env : Env}
    (henv : p.Active k env) (c step : Option Expr) (body : Stmt) :
    FlowConfined p k (Flow.loop (match c with
        | some e => do
          let v ← Eval.eval n env e
          look (·.toBool n v)
        | none => pure true) (Eval.exec n env body) (match step with
        | some e => do
          let _ ← Eval.eval n env e
        | none => pure ()) n .invalid) := by
  refine flowConfined_loop ?_ (ih.exec k henv body) ?_ n (Extent.le_refl k) trivial
  · cases c with
    | none => exact Keeps.pure fun _ _ => trivial
    | some e => exact keeps_condition (ih.eval k henv e)
  · cases step with
    | none => exact Keeps.pure fun _ _ => trivial
    | some e => exact Keeps.bind (ih.eval k henv e) fun _ _ _ _ => Keeps.pure fun _ _ => trivial

theorem EvaluatorConfined.exec_succ (ih : EvaluatorConfined p n) (k : Extent) {env : Env}
    (henv : p.Active k env) (s : Stmt) : FlowConfined p k (Eval.exec (n + 1) env s) := by
  have heval := fun e => ih.eval k henv e
  have hexec := fun s => ih.exec k henv s
  cases s with
  | block body pos => exact ih.exec_block k env body pos
  | ifElse c t f pos =>
    refine Keeps.bind (heval c) fun l₁ v hl₁ _ => Keeps.bind Keeps.test fun l₂ b hl₂ _ => ?_
    have hle := Extent.le_trans hl₁ hl₂
    split
    · exact (hexec t).grow hle
    · split
      · exact (hexec _).grow hle
      · exact Keeps.pure fun _ _ => trivial
  | switch subject sections pos =>
    refine Keeps.bind (heval subject) fun l v hl _ => ?_
    refine Keeps.bind (keeps_select (fun e => (keeps_condition (heval e)).grow hl) none sections
      (Extent.le_refl l)) fun m chosen hm _ => ?_
    have hbody : ∀ body, FlowConfined p m (Flow.sequence (Eval.exec n env) .invalid body) := by
      intro body
      exact flowConfined_sequence (fun s => (hexec s).grow (Extent.le_trans hl hm)) body
        (Extent.le_refl m) trivial
    exact flowConfined_runSections hbody chosen (Extent.le_refl m) trivial
  | whileLoop c body pos =>
    exact flowConfined_loop (keeps_condition (heval c)) (hexec body)
      (Keeps.pure fun _ _ => trivial) n (Extent.le_refl k) trivial
  | forLoop init c step body pos =>
    cases init with
    | none => exact ih.forLoop_rest k henv c step body
    | some e =>
      exact Keeps.bind (heval e) fun l _ hl _ => ih.forLoop_rest l (henv.mono hl) c step body
  | breakLoop pos | continueLoop pos => exact Keeps.pure fun _ _ => trivial
  | returnValue e pos =>
    cases e with
    | none => exact Keeps.pure fun _ _ => trivial
    | some e => exact Keeps.bind (heval e) fun _ _ _ hv => Keeps.pure fun _ hm => hv.mono hm
  | expr e => exact Keeps.bind (heval e) fun _ _ _ hv => Keeps.pure fun _ hm => hv.mono hm
  | declare decl =>
    refine Keeps.bind (keeps_newFunction (fun _ => .ofDecl decl env) (fun _ => rfl) fun σ _ _ => ?_)
      fun l f hl _ => ?_
    · exact ofDecl_within decl env
    · exact Keeps.bind (keeps_define (henv.mono hl) trivial) fun _ _ _ _ =>
        Keeps.pure fun _ _ => trivial

/-- The step for calls.  What a function holds is known from the store, which obeys the policy. -/
theorem EvaluatorConfined.invoke_succ [Host.Confined] (ih : EvaluatorConfined p n) :
    CallConfined p (Eval.invoke (n + 1)) := by
  intro k f args hargs
  refine Keeps.bind (Q := fun l (fn : Function) => fn.Within p l)
    (Keeps.view fun σ hσ _ => hσ.functions f) fun l fn hl hfn => ?_
  have hargs := fun a ha => (hargs a ha).mono hl
  have hslots := Argument.bind_all (fn.params.map (·.name)) hargs
  simp only []
  split
  · refine confined_run ih.invoke (fun v hv => ?_) _
    obtain ⟨a, ha, rfl⟩ := List.mem_map.1 hv
    exact hargs a ha
  · exact confined_run ih.invoke (within_valueOr hfn.default hslots) _
  · -- A declared function runs in a scope of its own, which binds its parameters.
    refine Keeps.bind (keeps_enter _) fun m env hm henv => ?_
    refine Keeps.bind (keeps_bindAll henv (fun e => ih.eval m henv e) _ _ (Extent.le_refl m)
      (fun q hq v hv => (hfn.default q hq v hv).mono hm) fun v hv => (hslots v hv).mono hm)
      fun m' _ hm' _ => ?_
    refine Keeps.bind (flowConfined_sequence (fun s => ih.exec m' (henv.mono hm') s) _
      (Extent.le_refl m') trivial) fun _ flow _ hflow => ?_
    exact Keeps.pure fun _ hl => hflow.mono hl
  · refine Keeps.bind (ih.invoke l _ args hargs) fun m v _ hv => ?_
    exact ih.invoke m _ _ fun a ha => List.mem_singleton.1 ha ▸ hv
  · next target bound hbody =>
    -- The store holds the bound argument, so that it may be mentioned is known from the store.
    refine Keeps.bind (Q := fun _ _ => True) (Keeps.view fun _ _ _ => trivial)
      fun m first hm _ => ?_
    refine ih.invoke m _ _ fun a ha => ?_
    rcases List.mem_cons.1 ha with rfl | ha
    · exact (hfn.bound _ _ hbody).mono hm
    · exact (hargs a ha).mono hm

/-- By induction on fuel: the functions of the evaluator call each other with less. -/
theorem evaluatorConfined [Host.Confined] (p : Policy) (n : Nat) : EvaluatorConfined p n := by
  induction n with
  | zero =>
    exact ⟨fun _ _ _ _ => Keeps.exhausted, fun _ _ _ _ => Keeps.exhausted,
      fun _ _ _ _ => Keeps.exhausted, fun _ _ _ _ => Keeps.exhausted⟩
  | succ n ih =>
    exact ⟨fun k _ henv => ih.eval_succ k henv, fun k _ henv => ih.locate_succ k henv,
      fun k _ henv => ih.exec_succ k henv, ih.invoke_succ⟩

/-- A program keeps every policy under which its environment is active. -/
theorem confined_execProgram [Host.Confined] (fuel : Nat) {env : Env} (henv : p.Active k env)
    (program : Program) :
    Confined p k (execProgram fuel env program) := by
  have hexec := (evaluatorConfined p fuel).exec k henv
  refine Keeps.bind (flowConfined_sequence hexec program (Extent.le_refl k) trivial)
    fun _ flow _ hflow => ?_
  exact Keeps.pure fun _ hl => hflow.mono hl

end Evaluator
end Eval

/-! ## 5. Runs -/

namespace Interpreter

/-- What the outcome of a run is when it has no result: an error, or nothing if the error was
handled. -/
def RunReport.Faulty (report : RunReport) : Prop :=
  (∃ e, report.outcome = .error e) ∨ report.outcome = .ok .invalid

/-- Reporting an error changes no store. -/
theorem reportError_faulty (i : Interpreter) (e : RunError) (σ : Store) :
    (reportError i e σ).Faulty ∧ (reportError i e σ).store = σ := by
  unfold reportError
  split
  · exact ⟨.inl ⟨e, rfl⟩, rfl⟩
  · exact ⟨.inr rfl, rfl⟩

variable [Host]

/-- The three ways in which a run ends: the text has no tree, its execution fails, or its value is
copied. -/
theorem runIn_cases {fuel : Nat} {i : Interpreter} {env : Env} {source : String} {σ : Store}
    {report : RunReport} (h : runIn fuel i env source σ = some report) :
    report.Faulty ∧ report.store = σ ∨
    (∃ program e, Eval.execProgram fuel env program σ = .failed e report.store ∧ report.Faulty) ∨
    ∃ program v τ w, Eval.execProgram fuel env program σ = .done v τ ∧
      τ.copy fuel v = some (w, report.store) ∧ report.outcome = .ok w := by
  simp only [runIn, Option.bind_eq_bind, Option.bind_eq_some_iff, Prod.exists] at h
  obtain ⟨tree, j, -, h⟩ := h
  cases tree with
  | error e =>
    cases h
    exact .inl (reportError_faulty j _ σ)
  | ok tree =>
    simp only [] at h
    split at h
    · cases h
    · next e τ hexec =>
      cases h
      obtain ⟨hfaulty, hstore⟩ := reportError_faulty j (.ofRuntime e) τ
      exact .inr (.inl ⟨_, e, hstore ▸ hexec, hfaulty⟩)
    · next v τ hexec =>
      simp only [reportResult, Option.bind_eq_bind, Option.bind_eq_some_iff, Prod.exists] at h
      obtain ⟨w, υ, hcopy, notices, -, h⟩ := h
      cases h
      exact .inr (.inr ⟨_, v, τ, w, hexec, hcopy, rfl⟩)

variable [Host.Confined]

/-- A run in an active environment keeps the policy. -/
theorem runIn_confined {p : Policy} {fuel : Nat} {i : Interpreter} {env : Env}
    {source : String} {σ : Store} {report : RunReport} (hσ : σ.Obeys p)
    (henv : p.Active σ.extent env) (h : runIn fuel i env source σ = some report) :
    report.store.Obeys p ∧ σ.Follows p report.store := by
  have hconfined := fun program =>
    Eval.confined_execProgram fuel henv program σ hσ (Extent.le_refl _)
  rcases runIn_cases h with
    ⟨-, hstore⟩ | ⟨program, e, hexec, -⟩ | ⟨program, v, τ, w, hexec, hcopy, -⟩
  · rw [hstore]
    exact ⟨hσ, .refl p σ⟩
  · have hrun := hconfined program
    rwa [hexec] at hrun
  · have hrun := hconfined program
    rw [hexec] at hrun
    obtain ⟨hτ, hστ, -⟩ := hrun
    obtain ⟨hυ, hτυ, -⟩ := Eval.obeys_of_copiedTo hτ (Store.copiedTo_of_copy hcopy)
    exact ⟨hυ, hστ.trans hτυ⟩

/-- An isolated run starts with a new scope, which is active under every policy. -/
theorem runIsolated_confined {p : Policy} {fuel : Nat} {i : Interpreter}
    {source : String} {σ : Store} {report : RunReport} (hσ : σ.Obeys p)
    (h : runIsolated fuel i source σ = some report) :
    report.store.Obeys p ∧ σ.Follows p report.store := by
  obtain ⟨hobeys, hfollows⟩ :=
    runIn_confined (hσ.newScope i.env.root.chain) (hσ.active_enter i.env.root) h
  exact ⟨hobeys, (Store.follows_newScope p σ _).trans hfollows⟩

end Interpreter

/-! ## 6. Closed stores

What the values of a store mention stays in existence, whatever is computed. -/

namespace Store

variable {σ τ : Store}

theorem empty_closed : empty.Closed := empty_obeys (Extent.le_refl _)

theorem Closed.write (hσ : σ.Closed) {fuel : Nat} {r : Reference} {v : Value} (hr : r.ClosedIn σ)
    (hv : v.ClosedIn σ) (hτ : (Eval.write fuel r v σ).store? = some τ) : τ.Closed :=
  ((Eval.keeps_write hr hv σ hσ (Extent.le_refl _)).store hτ).1

variable [Host] [Host.Confined]

/-- What an expression names when it is evaluated exists in the store that the evaluation leaves. -/
theorem Closed.locate (hσ : σ.Closed) {fuel : Nat} {env : Env}
    (henv : env.here.index < σ.scopes.size) {e : Expr} {r : Reference}
    (h : Eval.locate fuel env e σ = .done r τ) : τ.Closed ∧ r.ClosedIn τ := by
  have hactive : Policy.inside.Active σ.extent env := fun _ => henv
  have hlocate := (Eval.evaluatorConfined .inside fuel).locate σ.extent hactive e σ hσ
    (Extent.le_refl _)
  rw [h] at hlocate
  exact ⟨hlocate.1, hlocate.2.2⟩

/-- Executing a statement leaves a closed store closed, also if it fails. -/
theorem Closed.exec (hσ : σ.Closed) {fuel : Nat} {env : Env}
    (henv : env.here.index < σ.scopes.size) {s : Stmt}
    (hτ : (Eval.exec fuel env s σ).store? = some τ) : τ.Closed := by
  have hactive : Policy.inside.Active σ.extent env := fun _ => henv
  have hexec := (Eval.evaluatorConfined .inside fuel).exec σ.extent hactive s
  exact ((hexec σ hσ (Extent.le_refl _)).store hτ).1

theorem Closed.invoke (hσ : σ.Closed) {fuel : Nat} {f : FunctionId} {args : List Argument}
    (hargs : ∀ a ∈ args, a.value.ClosedIn σ) (hτ : (Eval.invoke fuel f args σ).store? = some τ) :
    τ.Closed := by
  have hinvoke := (Eval.evaluatorConfined .inside fuel).invoke σ.extent f args hargs
  exact ((hinvoke σ hσ (Extent.le_refl _)).store hτ).1

theorem Closed.runIn (hσ : σ.Closed) {fuel : Nat} {i : Interpreter} {env : Env} {source : String}
    (henv : env.here.index < σ.scopes.size) {report : Interpreter.RunReport}
    (h : i.runIn fuel env source σ = some report) : report.store.Closed :=
  (Interpreter.runIn_confined hσ (fun _ => henv) h).1

theorem Closed.runIsolated (hσ : σ.Closed) {fuel : Nat} {i : Interpreter} {source : String}
    {report : Interpreter.RunReport} (h : i.runIsolated fuel source σ = some report) :
    report.store.Closed :=
  (Interpreter.runIsolated_confined hσ h).1

end Store
end Scriptlet
