import Scriptlet.Proofs.ConfinedRuns
import Scriptlet.Proofs.SampleHostLaws

/-!
# Scopes do not leak

A block, a call and an isolated run each work in a new scope.  The scopes that were there before
keep their names, and get a new one only through a reference that was there before: assigning to a
reference to an unbound variable binds it in the scope that the reference names.

The proof is a policy: code may bind what it likes in new scopes, and in an old scope what some old
reference names.

Blocks and calls have scopes of their own by §4.4 and §10.7 of the specification, and isolated runs
by §10.6; its §8 has the example of a name that must not leak.
-/

namespace Scriptlet

/-! ## 1. References to variables -/

mutual
/-- Whether a value holds a reference to the variable `x` of the scope `s`. -/
def Value.refersTo (s : ScopeId) (x : String) : Value → Bool
  | .reference r => r.refersTo s x
  | _ => false

def Reference.refersTo (s : ScopeId) (x : String) : Reference → Bool
  | .direct v => v.refersTo s x
  | .binding env y => decide (env.here = s) && decide (y = x)
  | .element base index => base.refersTo s x || index.refersTo s x
end

/-- A store holds a reference to a variable in a binding, in a cell of an array, or in an argument
that a function is applied to. -/
inductive Store.HoldsReference (σ : Store) (s : ScopeId) (x : String) : Prop
  | binding (t : ScopeId) (y : String) (v : Value) :
      (σ.scope t).find? y = some v → v.refersTo s x = true → HoldsReference σ s x
  | cell (a : ArrayId) (v : Value) : v ∈ σ.items a → v.refersTo s x = true → HoldsReference σ s x
  | applied (f target : FunctionId) (v : Value) : (σ.function f).body = .applied target v →
      v.refersTo s x = true → HoldsReference σ s x

/-- No parameter of a native function stands for a reference if it is left open.  Declared functions
have no such default values, and those of the standard library are texts. -/
def Store.PlainDefaults (σ : Store) : Prop :=
  ∀ f, ∀ param ∈ (σ.function f).params, ∀ v, param.default = some (.value v) →
    ∀ s x, v.refersTo s x = false

/-- The scopes of `σ` have the same names in `τ`, but for new ones that are allowed. -/
structure Store.KeepsNames (σ τ : Store) (allowed : ScopeId → String → Prop) : Prop where
  kept : ∀ s x, (σ.scope s).contains x = true → (τ.scope s).contains x = true
  unchanged : ∀ s x, s.index < σ.scopes.size → ¬ allowed s x →
    (τ.scope s).contains x = (σ.scope s).contains x

/-! ## 2. The policy -/

def Policy.binding (σ : Store) (allowed : ScopeId → String → Prop) : Policy where
  base := ⟨0, σ.scopes.size⟩
  array _ _ := True
  closed _ := False
  mayBind _ s x := σ.scopes.size ≤ s.index ∨ allowed s x
  array_mono _ _ := trivial
  array_new _ := trivial
  not_closed _ h := h
  mayBind_mono _ h := h
  mayBind_new h := .inl h

section

variable {σ τ : Store} {allowed : ScopeId → String → Prop}

mutual
theorem Value.within_binding {k : Extent} :
    ∀ {v : Value}, (∀ s x, v.refersTo s x = true → allowed s x) →
      v.Within (.binding σ allowed) k
  | .reference _, h => Reference.within_binding h
  | .array _, _ => trivial
  | .invalid, _ | .bool _, _ | .int _, _ | .float _, _ | .str _, _ | .function _, _ => trivial

theorem Reference.within_binding {k : Extent} :
    ∀ {r : Reference}, (∀ s x, r.refersTo s x = true → allowed s x) →
      r.Within (.binding σ allowed) k
  | .direct _, h => Value.within_binding h
  | .binding env y, h => .inr (h env.here y (by simp [Reference.refersTo]))
  | .element _ _, h =>
    ⟨Reference.within_binding fun s x hr => h s x (by simp [Reference.refersTo, hr]),
      Value.within_binding fun s x hv => h s x (by simp [Reference.refersTo, hv])⟩
end

/-- A store obeys the policy as soon as the references that it holds are allowed. -/
theorem Store.PlainDefaults.obeys (hσ : σ.PlainDefaults)
    (hallowed : ∀ s x, σ.HoldsReference s x → allowed s x) :
    σ.Obeys (.binding σ allowed) := by
  refine ⟨⟨Nat.zero_le _, Nat.le_refl _⟩, fun t y v hv => ?_, fun a _ v hv => ?_,
    fun f => ⟨fun param hparam v hv => ?_, fun target v hv => ?_⟩⟩
  · exact Value.within_binding fun s x hr => hallowed s x (.binding t y v hv hr)
  · exact Value.within_binding fun s x hr => hallowed s x (.cell a v hv hr)
  · refine Value.within_binding fun s x hr => ?_
    rw [hσ f param hparam v hv s x] at hr
    cases hr
  · exact Value.within_binding fun s x hr => hallowed s x (.applied f target v hv hr)

theorem Store.Follows.keepsNames (h : σ.Follows (.binding σ allowed) τ) :
    σ.KeepsNames τ allowed := by
  refine ⟨h.kept, fun s x hs hx => Bool.eq_iff_iff.2 ⟨fun hτ => ?_, h.kept s x⟩⟩
  rcases h.bound s x hτ with hσ | hnew | hallowed
  · exact hσ
  · exact absurd hnew (Nat.not_le.2 hs)
  · exact absurd hallowed hx

end

/-! ## 3. Blocks, calls and isolated runs

Each of them starts from the store as it is, and so does its policy. -/

section Runs

variable [Host] [Host.Confined]

/-- A block runs in a new scope, with nothing but what the store holds. -/
theorem names_after_block {σ τ : Store} (hσ : σ.PlainDefaults) {fuel : Nat} {env : Env}
    {body : List Stmt} {pos : Position}
    (hτ : (Eval.exec fuel env (.block body pos) σ).store? = some τ) :
    σ.KeepsNames τ σ.HoldsReference := by
  cases fuel with
  | zero => cases hτ
  | succ n =>
    have hblock := (Eval.evaluatorConfined (.binding σ σ.HoldsReference) n).exec_block σ.extent
      env body pos
    exact ((hblock σ (hσ.obeys fun _ _ h => h) (Extent.le_refl _)).store hτ).2.keepsNames

/-- A call also has its arguments. -/
theorem names_after_call {σ τ : Store} (hσ : σ.PlainDefaults) {fuel : Nat} {f : FunctionId}
    {args : List Argument} (hτ : (Eval.invoke fuel f args σ).store? = some τ) :
    σ.KeepsNames τ fun s x => σ.HoldsReference s x ∨ ∃ a ∈ args, a.value.refersTo s x = true := by
  have hcall := (Eval.evaluatorConfined (.binding σ fun s x =>
    σ.HoldsReference s x ∨ ∃ a ∈ args, a.value.refersTo s x = true) fuel).invoke σ.extent f args
      fun a ha => Value.within_binding fun s x hr => .inr ⟨a, ha, hr⟩
  exact ((hcall σ (hσ.obeys fun _ _ h => .inl h) (Extent.le_refl _)).store hτ).2.keepsNames

theorem names_after_isolated {σ : Store} (hσ : σ.PlainDefaults) {fuel : Nat} {i : Interpreter}
    {source : String} {report : Interpreter.RunReport}
    (h : i.runIsolated fuel source σ = some report) :
    σ.KeepsNames report.store σ.HoldsReference := by
  have hobeys : σ.Obeys (.binding σ σ.HoldsReference) := hσ.obeys fun _ _ h => h
  exact (Interpreter.runIsolated_confined hobeys h).2.keepsNames

/-- Blocks, calls and isolated runs leave the names of every scope that was there before as they
are, however they end, but for variables that a reference named before. -/
theorem old_scopes_bind_only_referenced_names (σ : Store) (hσ : σ.PlainDefaults) (fuel : Nat) :
    (∀ env body pos τ, (Eval.exec fuel env (.block body pos) σ).store? = some τ →
      σ.KeepsNames τ σ.HoldsReference) ∧
    (∀ f args τ, (Eval.invoke fuel f args σ).store? = some τ →
      σ.KeepsNames τ fun s x => σ.HoldsReference s x ∨ ∃ a ∈ args, a.value.refersTo s x = true) ∧
    ∀ (i : Interpreter) source report, i.runIsolated fuel source σ = some report →
      σ.KeepsNames report.store σ.HoldsReference :=
  ⟨fun _ _ _ _ => names_after_block hσ, fun _ _ _ => names_after_call hσ,
    fun _ _ _ => names_after_isolated hσ⟩

end Runs

/-- A scope whose variable `r` refers to the unbound `y`, and a function that assigns to a name of
its own, to its parameter and to `r`. -/
def outward : Store :=
  let root : Env := ⟨⟨0⟩, []⟩
  let assign (x : String) (n : Int64) : Stmt :=
    .expr (.binary .assign (.var x .start) (.int n .start) .start)
  { arrays := #[]
    scopes := #[⟨[("r", .reference (.binding root "y"))]⟩]
    functions := #[⟨"f", [⟨"p", none⟩], .script [assign "t" 1, assign "p" 2, assign "r" 3] root⟩] }

theorem outward_plainDefaults : outward.PlainDefaults := by
  intro f param hparam v hv
  by_cases hf : f.index = 0
  · have hone : (outward.function f).params = [⟨"p", none⟩] := by simp [Store.function, outward, hf]
    rw [hone, List.mem_singleton] at hparam
    rw [hparam] at hv
    cases hv
  · have hnone : (outward.function f).params = [] := by
      simp [Store.function, outward, Array.getElem?_eq_none, Nat.one_le_iff_ne_zero.2 hf,
        Function.absent]
    rw [hnone] at hparam
    cases hparam

/-- The call binds `y` and `z`, which references name, and leaves its own `t` and `p` behind in its
scope. -/
theorem outward_names : outward.PlainDefaults ∧
    ∃ τ, (Eval.invoke 9 ⟨0⟩ [.positional (.reference (.binding ⟨⟨0⟩, []⟩ "z"))] outward).store? =
        some τ ∧
      ["r", "y", "z", "t", "p"].map (τ.scope ⟨0⟩).contains = [true, true, true, false, false] ∧
      outward.KeepsNames τ fun s x => outward.HoldsReference s x ∨
        ∃ a ∈ [Argument.positional (.reference (.binding ⟨⟨0⟩, []⟩ "z"))],
          a.value.refersTo s x = true :=
  ⟨outward_plainDefaults, _, rfl, by decide,
    (old_scopes_bind_only_referenced_names outward outward_plainDefaults 9).2.1 ⟨0⟩ _ _ rfl⟩

end Scriptlet
