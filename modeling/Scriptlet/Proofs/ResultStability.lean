import Scriptlet.Proofs.ConfinedRuns
import Scriptlet.Proofs.SampleHostLaws

/-!
# Results of runs never change

The result of a run is a deep copy, so its arrays are new, and nothing in the store mentions them.
Whatever a host does later, as long as it does not hand these arrays over itself, no computation
gets at them.

A session of a host is a sequence of steps: it makes scopes, arrays and functions, binds names,
writes to locations, runs source texts and calls functions.  The one thing asked of it is that the
values it hands over hold arrays that exist, and after the run, none of the result's.

This is the stabilisation of results in §10.6 of the specification: later runs cannot change arrays
that the host already holds.
-/

namespace Scriptlet

/-! ## 1. Arrays that values share

The policy of a result is that its arrays are never mentioned. -/

mutual
/-- Whether a value holds an array, itself or inside of a reference. -/
def Value.mentions (a : ArrayId) : Value → Bool
  | .array b => decide (b = a)
  | .reference r => r.mentions a
  | _ => false

def Reference.mentions (a : ArrayId) : Reference → Bool
  | .direct v => v.mentions a
  | .binding _ _ => false
  | .element base index => base.mentions a || index.mentions a
end

/-- Values hold arrays that exist, and none of the set `S`, whose members have numbers below `n`. -/
def Policy.avoiding (S : ArrayId → Prop) (n : Nat) (hS : ∀ a, S a → a.index < n) : Policy where
  base := ⟨n, 0⟩
  array k a := a.index < k ∧ ¬ S a
  closed := S
  mayBind _ _ _ := True
  array_mono hkl h := ⟨Nat.lt_of_lt_of_le h.1 hkl, h.2⟩
  array_new h := ⟨Nat.lt_succ_self _, fun hk => Nat.not_lt.2 h (hS _ hk)⟩
  not_closed h := h.2
  mayBind_mono _ _ := trivial
  mayBind_new _ := trivial

def Policy.existing : Policy := .avoiding (fun _ => False) 0 fun _ h => h.elim

section

variable {S : ArrayId → Prop} {n : Nat} {hS : ∀ a, S a → a.index < n} {k : Extent}

mutual
/-- A value obeys the policy if and only if each array that it mentions does. -/
theorem Value.within_avoiding_iff : ∀ {v : Value},
    v.Within (.avoiding S n hS) k ↔ ∀ a, v.mentions a = true → a.index < k.arrays ∧ ¬ S a
  | .array b => by
    simp only [Value.Within, Value.mentions, decide_eq_true_eq]
    exact ⟨fun h a hab => hab ▸ h, fun h => h b rfl⟩
  | .reference r => Reference.within_avoiding_iff
  | .invalid | .bool _ | .int _ | .float _ | .str _ | .function _ =>
    by simp [Value.Within, Value.mentions]

theorem Reference.within_avoiding_iff : ∀ {r : Reference},
    r.Within (.avoiding S n hS) k ↔ ∀ a, r.mentions a = true → a.index < k.arrays ∧ ¬ S a
  | .direct v => Value.within_avoiding_iff
  | .binding _ _ => by simp [Reference.Within, Reference.mentions, Policy.avoiding]
  | .element base index => by
    simp only [Reference.Within, Reference.mentions, Bool.or_eq_true]
    rw [Reference.within_avoiding_iff, Value.within_avoiding_iff]
    exact ⟨fun h a ha => ha.elim (h.1 a) (h.2 a),
      fun h => ⟨fun a ha => h a (.inl ha), fun a ha => h a (.inr ha)⟩⟩
end

/-- What holds only arrays that exist at an extent holds none of a set that begins there. -/
theorem Value.Within.avoiding {l : Extent} {v : Value} (hv : v.Within .existing k) (hkl : k ≤ l)
    (hfrom : ∀ a, S a → k.arrays ≤ a.index) : v.Within (.avoiding S n hS) l := by
  refine Value.within_avoiding_iff.2 fun a ha => ?_
  have hlt := (Value.within_avoiding_iff.1 hv a ha).1
  exact ⟨Nat.lt_of_lt_of_le hlt hkl.1, fun hSa => Nat.not_lt.2 (hfrom a hSa) hlt⟩

end

/-! ## 2. Hosts

A host is not a program here: it may take any step at any time. -/

/-- The value holds arrays of the store, and none of the set `S`. -/
def Store.Offers (σ : Store) (S : ArrayId → Prop) (v : Value) : Prop :=
  ∀ a, v.mentions a = true → a.index < σ.arrays.size ∧ ¬ S a

section Hosts

variable [Host]

/-- A step of a host that keeps the arrays of `S` to itself. -/
inductive HostStep (S : ArrayId → Prop) (σ : Store) : Store → Prop
  | runIn {fuel : Nat} {i : Interpreter} {env : Env} {source : String}
      {report : Interpreter.RunReport} :
      i.runIn fuel env source σ = some report → HostStep S σ report.store
  | runIsolated {fuel : Nat} {i : Interpreter} {source : String} {report : Interpreter.RunReport} :
      i.runIsolated fuel source σ = some report → HostStep S σ report.store
  | call {fuel : Nat} {f : FunctionId} {args : List Argument} {τ : Store} :
      (∀ a ∈ args, σ.Offers S a.value) → (Eval.invoke fuel f args σ).store? = some τ →
      HostStep S σ τ
  | write {fuel : Nat} {r : Reference} {v : Value} {τ : Store} :
      σ.Offers S (.reference r) → σ.Offers S v → (Eval.write fuel r v σ).store? = some τ →
      HostStep S σ τ
  | define (env : Env) (x : String) {v : Value} : σ.Offers S v → HostStep S σ (σ.define env x v)
  | set (env : Env) (x : String) {v : Value} : σ.Offers S v → HostStep S σ (σ.set env x v)
  | remove (env : Env) (x : String) : HostStep S σ (σ.remove env x)
  | newScope (outer : List ScopeId) : HostStep S σ (σ.newScope outer).2
  | newArray {items : Array Value} : (∀ v ∈ items, σ.Offers S v) → HostStep S σ (σ.newArray items).2
  | replaceItems {a : ArrayId} {items : Array Value} : ¬ S a → (∀ v ∈ items, σ.Offers S v) →
      HostStep S σ (σ.modifyArray a fun _ => items)
  | newFunction {fn : Function} :
      (∀ param ∈ fn.params, ∀ v, param.default = some (.value v) → σ.Offers S v) →
      (∀ target v, fn.body = .applied target v → σ.Offers S v) → HostStep S σ (σ.newFunction fn).2
  | install (registry : Registry) (env : Env) : HostStep S σ (registry.install env σ)

inductive HostSteps (S : ArrayId → Prop) (σ : Store) : Store → Prop
  | refl : HostSteps S σ σ
  | step {τ υ : Store} : HostSteps S σ τ → HostStep S τ υ → HostSteps S σ υ

def InSession (σ : Store) : Prop := HostSteps (fun _ => False) .empty σ

/-- A run from the store `σ` returned the value `v`, and left the store `τ`. -/
inductive Returned (σ : Store) (v : Value) : Store → Prop
  | run {fuel : Nat} {i : Interpreter} {source : String} {report : Interpreter.RunReport} :
      i.run fuel source σ = some report → report.outcome = .ok v → Returned σ v report.store
  | runIn {fuel : Nat} {i : Interpreter} {env : Env} {source : String}
      {report : Interpreter.RunReport} :
      i.runIn fuel env source σ = some report → report.outcome = .ok v → Returned σ v report.store
  | runIsolated {fuel : Nat} {i : Interpreter} {source : String} {report : Interpreter.RunReport} :
      i.runIsolated fuel source σ = some report → report.outcome = .ok v → Returned σ v report.store

end Hosts

/-! ## 3. Installing namespaces -/

def Export.plain : Export → Bool
  | .constant v => v.isScalar
  | .function f =>
    f.params.all (fun param => match param.default with
      | some (.value v) => v.isScalar
      | _ => true) &&
    match f.body with
    | .applied _ _ => false
    | _ => true

/-- Namespaces export numbers and native code. -/
theorem Namespace.exports_plain (ns : Namespace) : ns.exports.all (·.2.plain) = true := by
  cases ns <;> rfl

section Install

variable {p : Policy} {σ : Store}

theorem Function.within_of_plain {k : Extent} {f : Function}
    (h : (Export.function f).plain = true) :
    f.Within p k := by
  simp only [Export.plain, Bool.and_eq_true, List.all_eq_true] at h
  refine ⟨fun param hparam v hv => ?_, fun target v hv => ?_⟩
  · have hdefault := h.1 param hparam
    rw [hv] at hdefault
    exact Value.within_of_isScalar hdefault
  · rw [hv] at h
    cases h.2

theorem Export.realize_obeys (hσ : σ.Obeys p) {e : Export} (he : e.plain = true) :
    (e.realize σ).2.Obeys p ∧ σ.Follows p (e.realize σ).2 ∧
      (e.realize σ).1.Within p (e.realize σ).2.extent := by
  cases e with
  | constant v => exact ⟨hσ, .refl p σ, Value.within_of_isScalar he⟩
  | function f =>
    exact ⟨hσ.newFunction (Function.within_of_plain he), Store.follows_newFunction p σ f, trivial⟩

/-- One export after the other. -/
theorem Registry.define_obeys {env : Env} :
    ∀ (exports : List (String × Export)) {σ : Store}, p.Active σ.extent env → σ.Obeys p →
      exports.all (·.2.plain) = true →
      (Registry.define env exports σ).Obeys p ∧ σ.Follows p (Registry.define env exports σ)
  | [], σ, _, hσ, _ => ⟨hσ, .refl p σ⟩
  | (x, e) :: exports, σ, henv, hσ, h => by
    rw [List.all_cons, Bool.and_eq_true] at h
    obtain ⟨hτ, hστ, hv⟩ := Export.realize_obeys hσ h.1
    have hfirst := hστ.trans (Store.follows_define (e.realize σ).1 (.inr (henv.mono hστ.extent x)))
    have hdefine := hτ.define (s := env.here) (x := x) hv
    obtain ⟨hobeys, hfollows⟩ := Registry.define_obeys exports (henv.mono hfirst.extent) hdefine h.2
    exact ⟨hobeys, hfirst.trans hfollows⟩

theorem Registry.install_obeys {env : Env} (henv : p.Active σ.extent env) (hσ : σ.Obeys p)
    (registry : Registry) :
    (registry.install env σ).Obeys p ∧ σ.Follows p (registry.install env σ) := by
  refine Registry.define_obeys _ henv hσ (List.all_eq_true.2 fun e he => ?_)
  obtain ⟨ns, -, hns⟩ := List.mem_flatMap.1 he
  exact List.all_eq_true.1 ns.exports_plain e hns

end Install

/-! ## 4. Steps avoid the arrays of the set

Every step keeps to a policy that its values obey, so a closed array stays as it is. -/

section Steps

variable {S : ArrayId → Prop} {n : Nat} {hS : ∀ a, S a → a.index < n} {σ τ υ : Store}

theorem Store.Offers.within (hS : ∀ a, S a → a.index < n) {v : Value} (h : σ.Offers S v) :
    v.Within (.avoiding S n hS) σ.extent :=
  Value.within_avoiding_iff.2 h

theorem active_avoiding (env : Env) (k : Extent) : (Policy.avoiding S n hS).Active k env :=
  fun _ => trivial

/-- The store obeys the policy, and the arrays of the set hold what they did. -/
structure Store.Avoids (S : ArrayId → Prop) (n : Nat) (hS : ∀ a, S a → a.index < n) (σ τ : Store) :
    Prop where
  obeys : τ.Obeys (.avoiding S n hS)
  items : ∀ a, S a → τ.items a = σ.items a

theorem Store.Avoids.of_follows (h : τ.Obeys (.avoiding S n hS) ∧ σ.Follows (.avoiding S n hS) τ) :
    Store.Avoids S n hS σ τ :=
  ⟨h.1, h.2.closed⟩

/-- What a host hands over avoids the set, and what a computation makes of it does so too. -/
theorem HostStep.avoids [Host] [Host.Confined] (h : HostStep S σ τ)
    (hσ : σ.Obeys (.avoiding S n hS)) : Store.Avoids S n hS σ τ := by
  cases h with
  | runIn hrun => exact .of_follows (Interpreter.runIn_confined hσ (active_avoiding _ _) hrun)
  | runIsolated hrun => exact .of_follows (Interpreter.runIsolated_confined hσ hrun)
  | @call fuel f args _ hargs hcall =>
    have hconfined := (Eval.evaluatorConfined _ fuel).invoke σ.extent f args fun a ha =>
      (hargs a ha).within hS
    exact .of_follows ((hconfined σ hσ (Extent.le_refl _)).store hcall)
  | write hr hv hwrite =>
    exact .of_follows ((Eval.keeps_write (hr.within hS) (hv.within hS) σ hσ
      (Extent.le_refl _)).store hwrite)
  | define env x hv =>
    exact .of_follows ⟨hσ.define (hv.within hS), Store.follows_define _ (.inr trivial)⟩
  | set env x hv =>
    refine .of_follows ⟨?_, Store.follows_set _ trivial⟩
    rw [Store.set_eq]
    exact hσ.define (hv.within hS)
  | remove env x =>
    refine ⟨hσ.modifyScope _ fun y v hv => ?_, fun _ _ => rfl⟩
    rw [Scope.find?_remove] at hv
    split at hv
    · cases hv
    · exact hσ.bindings _ y v hv
  | newScope outer => exact .of_follows ⟨hσ.newScope outer, Store.follows_newScope _ σ outer⟩
  | newArray hitems =>
    exact .of_follows ⟨hσ.newArray fun v hv => (hitems v hv).within hS, hσ.follows_newArray _⟩
  | replaceItems ha hitems =>
    exact .of_follows ⟨hσ.modifyArray _ fun v hv => (hitems v hv).within hS,
      Store.follows_modifyArray ha _⟩
  | newFunction hdefault hbound =>
    refine .of_follows ⟨hσ.newFunction ⟨fun param hparam v hv => ?_, fun target v hv => ?_⟩,
      Store.follows_newFunction _ σ _⟩
    · exact (hdefault param hparam v hv).within hS
    · exact (hbound target v hv).within hS
  | install registry env =>
    exact .of_follows (Registry.install_obeys (active_avoiding env _) hσ registry)

/-- Induction on the steps: each starts from a store that obeys the policy. -/
theorem HostSteps.avoids [Host] [Host.Confined] (h : HostSteps S σ τ)
    (hσ : σ.Obeys (.avoiding S n hS)) : Store.Avoids S n hS σ τ := by
  induction h with
  | refl => exact ⟨hσ, fun _ _ => rfl⟩
  | step _ hstep ih =>
    have hlast := hstep.avoids ih.obeys
    exact ⟨hlast.obeys, fun a ha => by rw [hlast.items a ha, ih.items a ha]⟩

end Steps

/-! ## 5. Results

A result is a deep copy, so nothing that runs later has a way to its arrays. -/

section Results

variable {σ τ υ : Store} {v : Value}

/-- Right after the run, no array outside of the result leads into it: what was there before
mentions older arrays only. -/
theorem Store.CopiedTo.obeys (h : σ.CopiedTo v τ) (hσ : σ.Obeys .existing)
    (hlt : ∀ a, τ.Reaches v a → a.index < τ.arrays.size) :
    τ.Obeys (.avoiding (τ.Reaches v) τ.arrays.size hlt) := by
  have hfrom : ∀ a, τ.Reaches v a → σ.arrays.size ≤ a.index :=
    fun a ha => (h.bounds_of_reaches ha h.copied).1
  have hle := h.toExtendedBy.extent_le
  refine ⟨⟨Nat.le_refl _, Nat.zero_le _⟩, fun s x w hw => ?_, fun a ha w hw => ?_,
    fun f => ⟨fun param hparam w hw => ?_, fun target w hw => ?_⟩⟩
  · rw [h.toExtendedBy.scope_eq] at hw
    exact (hσ.bindings s x w hw).avoiding hle hfrom
  · by_cases hold : a.index < σ.arrays.size
    · rw [h.kept a hold] at hw
      exact (hσ.items a id w hw).avoiding hle hfrom
    · -- A newer array belongs to the result, or does not exist.
      by_cases hnew : a.index < τ.arrays.size
      · exact absurd (h.reached a (Nat.not_lt.1 hold) hnew) ha
      · rw [Store.items_of_size_le _ (Nat.not_lt.1 hnew)] at hw
        simp at hw
  · rw [h.toExtendedBy.function_eq] at hparam
    exact ((hσ.functions f).default param hparam w hw).avoiding hle hfrom
  · rw [h.toExtendedBy.function_eq] at hw
    exact ((hσ.functions f).bound target w hw).avoiding hle hfrom

variable [Host]

theorem InSession.obeys [Host.Confined] (h : InSession σ) : σ.Obeys .existing :=
  (HostSteps.avoids h (Store.empty_obeys (Extent.le_refl _))).obeys

/-- A result is nothing, if an error was handled, or a copy that was made in a closed store. -/
theorem copiedTo_of_runIn [Host.Confined] {fuel : Nat} {i : Interpreter} {env : Env}
    {source : String} {report : Interpreter.RunReport} (hσ : σ.Obeys .existing)
    (hrun : i.runIn fuel env source σ = some report) (hok : report.outcome = .ok v) :
    v = .invalid ∨ ∃ ρ : Store, ρ.Obeys .existing ∧ ρ.CopiedTo v report.store := by
  have hfaulty : report.Faulty → v = .invalid := by
    rintro (⟨e, he⟩ | hinvalid)
    · rw [he] at hok
      cases hok
    · rw [hinvalid] at hok
      cases hok
      rfl
  rcases Interpreter.runIn_cases hrun with
    ⟨hf, -⟩ | ⟨-, -, -, hf⟩ | ⟨program, u, ρ, w, hexec, hcopy, hw⟩
  · exact .inl (hfaulty hf)
  · exact .inl (hfaulty hf)
  · have hρ := Eval.confined_execProgram fuel (active_avoiding env σ.extent) program σ hσ
      (Extent.le_refl _)
    rw [hexec] at hρ
    rw [hw] at hok
    cases hok
    exact .inr ⟨ρ, hρ.1, Store.copiedTo_of_copy hcopy⟩

/-- The three entry points are runs in some environment. -/
theorem Returned.copiedTo [Host.Confined] (h : Returned σ v τ) (hσ : σ.Obeys .existing) :
    v = .invalid ∨ ∃ ρ : Store, ρ.Obeys .existing ∧ ρ.CopiedTo v τ := by
  cases h with
  | run hrun hok => exact copiedTo_of_runIn hσ hrun hok
  | runIn hrun hok => exact copiedTo_of_runIn hσ hrun hok
  | @runIsolated _ i _ _ hrun hok => exact copiedTo_of_runIn (hσ.newScope i.env.root.chain) hrun hok

/-- Every array of a result that a run of a session returned keeps its elements, whatever steps the
host takes, as long as it hands over no value that holds an array of the result. -/
theorem result_keeps_elements [Host.Confined] (hσ : InSession σ) (hreturned : Returned σ v τ)
    (hlater : HostSteps (τ.Reaches v) τ υ) : ∀ a, τ.Reaches v a → υ.items a = τ.items a := by
  rcases hreturned.copiedTo hσ.obeys with rfl | ⟨ρ, hρ, hcopied⟩
  · intro a ha
    cases ha
  -- From here on the arrays of the copy are the closed ones.
  · have hlt : ∀ a, τ.Reaches v a → a.index < τ.arrays.size := fun a ha =>
      (hcopied.bounds_of_reaches ha hcopied.copied).2
    exact (hlater.avoids (hcopied.obeys hρ hlt)).items

end Results

/-- The array that a run returned keeps its inner array, while that of the variable is written
to. -/
theorem nested_result_keeps_elements :
    InSession (Store.empty.newScope []).2 ∧ ∃ first later : Interpreter.RunReport,
      (Interpreter.ofEnv ⟨⟨0⟩, []⟩).run 60 "a = [1, [2]]; a" (Store.empty.newScope []).2 =
        some first ∧
      first.outcome = .ok (.array ⟨2⟩) ∧ first.store.Reaches (.array ⟨2⟩) ⟨3⟩ ∧
      first.interpreter.run 60 "a[1][0] = 3" first.store = some later ∧
      later.store.items ⟨0⟩ = #[.int 3] ∧ later.store.items ⟨3⟩ = #[.int 2] := by
  have hsession : InSession (Store.empty.newScope []).2 := .step .refl (.newScope [])
  have heval : ((Interpreter.ofEnv ⟨⟨0⟩, []⟩).run 60 "a = [1, [2]]; a"
      (Store.empty.newScope []).2).bind (fun first =>
        (first.interpreter.run 60 "a[1][0] = 3" first.store).map fun later =>
          (first.outcome.toOption, first.store.items ⟨2⟩, first.store.items ⟨3⟩,
            later.store.items ⟨0⟩)) =
      some (some (.array ⟨2⟩), #[.int 1, .array ⟨3⟩], #[.int 2], #[.int 3]) := by decide +kernel
  obtain ⟨first, hfirst, hrest⟩ := Option.bind_eq_some_iff.1 heval
  obtain ⟨later, hlater, hfacts⟩ := Option.map_eq_some_iff.1 hrest
  simp only [Prod.mk.injEq] at hfacts
  obtain ⟨hvalue, houter, hinner, hwritten⟩ := hfacts
  have hok : first.outcome = .ok (.array ⟨2⟩) := by
    cases houtcome : first.outcome <;> rw [houtcome] at hvalue <;> cases hvalue
    rfl
  have hreach : first.store.Reaches (.array ⟨2⟩) ⟨3⟩ := .item (by rw [houter]; simp) (.self _)
  have hkept := result_keeps_elements hsession (.run hfirst hok)
    (.step .refl (.runIn hlater)) ⟨3⟩ hreach
  exact ⟨hsession, first, later, hfirst, hok, hreach, hlater, hwritten, hkept.trans hinner⟩

end Scriptlet
