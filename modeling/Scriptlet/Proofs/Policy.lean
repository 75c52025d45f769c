import Scriptlet.Argument
import Scriptlet.Eval
import Scriptlet.Proofs.StoreLaws

/-!
# What a computation may know, and what it may change

A computation gets at arrays and variables only through values: those it starts with, those it finds
in the store, and those it makes.  A `Policy` says which arrays and variables values may mention.
If it holds of a store and of the values that a computation starts with, then it holds of all that
the computation stores and returns, and so nothing outside of it is changed (`Store.Follows`).

Arrays and scopes are made while a computation runs, so what may be mentioned depends on how many
there are; a policy never takes back what it allowed.  The least that is asked of values is that
what they mention exists (`Store.Closed`).

This is the frame property behind three promises of the specification: that results are stable
(§10.6), that an isolated run leaves no names behind (§10.6), and that a function writes to its own
scope unless the name is bound further out (§4.4, §8).
-/

namespace Scriptlet

/-! ## 1. Policies

A policy says which arrays values may mention and which names scopes may come to bind, in a store
that only grows. -/

structure Extent where
  arrays : Nat
  scopes : Nat

namespace Extent

instance : LE Extent := ⟨fun k l => k.arrays ≤ l.arrays ∧ k.scopes ≤ l.scopes⟩

theorem le_refl (k : Extent) : k ≤ k := ⟨Nat.le_refl _, Nat.le_refl _⟩

theorem le_trans {k l m : Extent} (h₁ : k ≤ l) (h₂ : l ≤ m) : k ≤ m :=
  ⟨Nat.le_trans h₁.1 h₂.1, Nat.le_trans h₁.2 h₂.2⟩

end Extent

/-- What values may mention. -/
structure Policy where
  /-- The policy is about stores of at least this extent. -/
  base : Extent
  /-- The arrays that may be mentioned in a store of so many arrays. -/
  array : Nat → ArrayId → Prop
  /-- Arrays that are never touched. -/
  closed : ArrayId → Prop
  /-- The names that a scope may come to bind in a store of so many scopes. -/
  mayBind : Nat → ScopeId → String → Prop
  array_mono {k l : Nat} {a : ArrayId} : k ≤ l → array k a → array l a
  array_new {k : Nat} : base.arrays ≤ k → array (k + 1) ⟨k⟩
  not_closed {k : Nat} {a : ArrayId} : array k a → ¬ closed a
  mayBind_mono {k l : Nat} {s : ScopeId} {x : String} : k ≤ l → mayBind k s x → mayBind l s x
  mayBind_new {k : Nat} {x : String} : base.scopes ≤ k → mayBind (k + 1) ⟨k⟩ x

namespace Policy

/-- Arrays to come may be mentioned, so none of them is closed. -/
theorem closed_lt (p : Policy) {a : ArrayId} (h : p.closed a) : a.index < p.base.arrays := by
  rcases Nat.lt_or_ge a.index p.base.arrays with hlt | hge
  · exact hlt
  · exact absurd h (p.not_closed (p.array_new hge))

def Active (p : Policy) (k : Extent) (env : Env) : Prop := ∀ x, p.mayBind k.scopes env.here x

theorem Active.mono {p : Policy} {k l : Extent} (h : k ≤ l) {env : Env} (henv : p.Active k env) :
    p.Active l env :=
  fun x => p.mayBind_mono h.2 (henv x)

end Policy

mutual
/-- A value that mentions only what it may in a store of the extent `k`. -/
def Value.Within (p : Policy) (k : Extent) : Value → Prop
  | .array a => p.array k.arrays a
  | .reference r => r.Within p k
  | _ => True

def Reference.Within (p : Policy) (k : Extent) : Reference → Prop
  | .direct v => v.Within p k
  | .binding env x => p.mayBind k.scopes env.here x
  | .element base index => base.Within p k ∧ index.Within p k
end

mutual
theorem Value.Within.mono {p : Policy} {k l : Extent} (h : k ≤ l) :
    ∀ {v : Value}, v.Within p k → v.Within p l
  | .array _, hv => p.array_mono h.1 hv
  | .reference _, hv => Reference.Within.mono h hv
  | .invalid, _ | .bool _, _ | .int _, _ | .float _, _ | .str _, _ | .function _, _ => trivial

theorem Reference.Within.mono {p : Policy} {k l : Extent} (h : k ≤ l) :
    ∀ {r : Reference}, r.Within p k → r.Within p l
  | .direct _, hr => Value.Within.mono h hr
  | .binding _ _, hr => p.mayBind_mono h.2 hr
  | .element _ _, hr => ⟨Reference.Within.mono h hr.1, Value.Within.mono h hr.2⟩
end

/-- The values that a function holds: the default values of its parameters, and the argument it is
applied to. -/
structure Function.Within (p : Policy) (k : Extent) (f : Function) : Prop where
  default : ∀ param ∈ f.params, ∀ v, param.default = some (.value v) → v.Within p k
  bound : ∀ target v, f.body = .applied target v → v.Within p k

theorem Function.Within.mono {p : Policy} {k l : Extent} (h : k ≤ l) {f : Function}
    (hf : f.Within p k) :
    f.Within p l :=
  ⟨fun param hparam v hv => (hf.default param hparam v hv).mono h,
    fun target v hv => (hf.bound target v hv).mono h⟩

/-! ## 2. Stores under a policy

Obeying says what a store holds, following what may become of it. -/

def Store.extent (σ : Store) : Extent := ⟨σ.arrays.size, σ.scopes.size⟩

/-- A store whose values mention only what they may.  What is in closed arrays does not matter. -/
structure Store.Obeys (p : Policy) (σ : Store) : Prop where
  base : p.base ≤ σ.extent
  bindings : ∀ s x v, (σ.scope s).find? x = some v → v.Within p σ.extent
  items : ∀ a, ¬ p.closed a → ∀ v ∈ σ.items a, v.Within p σ.extent
  functions : ∀ f, (σ.function f).Within p σ.extent

/-- The store `τ` comes after `σ` in a computation under the policy: closed arrays are as they were,
no name is lost, and names are bound only where they may be. -/
structure Store.Follows (p : Policy) (σ τ : Store) : Prop where
  extent : σ.extent ≤ τ.extent
  closed : ∀ a, p.closed a → τ.items a = σ.items a
  kept : ∀ s x, (σ.scope s).contains x = true → (τ.scope s).contains x = true
  bound : ∀ s x, (τ.scope s).contains x = true →
    (σ.scope s).contains x = true ∨ p.mayBind τ.scopes.size s x

namespace Store

variable {p : Policy} {σ τ υ : Store}

theorem Follows.refl (p : Policy) (σ : Store) : σ.Follows p σ :=
  ⟨Extent.le_refl _, fun _ _ => rfl, fun _ _ h => h, fun _ _ h => .inl h⟩

/-- What one step binds stays allowed later. -/
theorem Follows.trans (h₁ : σ.Follows p τ) (h₂ : τ.Follows p υ) : σ.Follows p υ := by
  refine ⟨Extent.le_trans h₁.extent h₂.extent, fun a ha => ?_, fun s x h => ?_, fun s x h => ?_⟩
  · rw [h₂.closed a ha, h₁.closed a ha]
  · exact h₂.kept s x (h₁.kept s x h)
  · rcases h₂.bound s x h with hτ | hbind
    · exact (h₁.bound s x hτ).imp id (p.mayBind_mono h₂.extent.2)
    · exact .inr hbind

theorem empty_obeys (hp : p.base ≤ empty.extent) : empty.Obeys p := by
  refine ⟨hp, fun s x v hv => ?_, fun a _ v hv => ?_,
    fun f => ⟨fun param hparam => ?_, fun target v hv => ?_⟩⟩
  · simp [scope, empty] at hv
  · simp [items, empty] at hv
  · simp [function, empty, Function.absent] at hparam
  · simp [function, empty, Function.absent] at hv

/-- A variable holds what its scope holds. -/
theorem Obeys.lookup (h : σ.Obeys p) {env : Env} {x : String} {v : Value}
    (hv : σ.lookup env x = some v) : v.Within p σ.extent := by
  rw [lookup_eq_setter] at hv
  exact h.bindings _ x v hv

theorem Obeys.getElem? (h : σ.Obeys p) {a : ArrayId} (ha : p.array σ.arrays.size a)
    {i : Nat} {v : Value} (hv : (σ.items a)[i]? = some v) : v.Within p σ.extent :=
  h.items a (p.not_closed ha) v (Array.mem_of_getElem? hv)

/-! ### New arrays, scopes and functions -/

theorem extent_le_newArray (σ : Store) (items : Array Value) :
    σ.extent ≤ (σ.newArray items).2.extent :=
  ⟨by simp [extent], Nat.le_refl _⟩

theorem extent_le_newScope (σ : Store) (outer : List ScopeId) :
    σ.extent ≤ (σ.newScope outer).2.extent :=
  ⟨Nat.le_refl _, by simp [extent]⟩

theorem ExtendedBy.extent_le (h : σ.ExtendedBy τ) : σ.extent ≤ τ.extent :=
  ⟨h.size, Nat.le_of_eq (congrArg Array.size h.scopes.symm)⟩

/-- New arrays are no closed ones. -/
theorem Obeys.lt_of_closed (h : σ.Obeys p) {a : ArrayId} (ha : p.closed a) :
    a.index < σ.arrays.size :=
  Nat.lt_of_lt_of_le (p.closed_lt ha) h.base.1

theorem Obeys.newArray (h : σ.Obeys p) {items : Array Value}
    (hitems : ∀ v ∈ items, v.Within p σ.extent) :
    (σ.newArray items).2.Obeys p := by
  have hle := extent_le_newArray σ items
  refine ⟨Extent.le_trans h.base hle, fun s x v hv => (h.bindings s x v hv).mono hle,
    fun a ha v hv => ?_, fun f => (h.functions f).mono hle⟩
  rw [items_newArray] at hv
  split at hv
  · exact (hitems v hv).mono hle
  · exact (h.items a ha v hv).mono hle

theorem Obeys.follows_newArray (h : σ.Obeys p) (items : Array Value) :
    σ.Follows p (σ.newArray items).2 := by
  refine ⟨extent_le_newArray σ items, fun a ha => ?_, fun s x hx => hx, fun s x hx => .inl hx⟩
  rw [items_newArray, if_neg]
  rintro rfl
  exact Nat.lt_irrefl _ (h.lt_of_closed ha)

theorem Obeys.array_newArray (h : σ.Obeys p) (items : Array Value) :
    p.array (σ.newArray items).2.arrays.size (σ.newArray items).1 := by
  rw [size_newArray]
  exact p.array_new h.base.1

theorem Obeys.newScope (h : σ.Obeys p) (outer : List ScopeId) : (σ.newScope outer).2.Obeys p := by
  have hle := extent_le_newScope σ outer
  refine ⟨Extent.le_trans h.base hle, fun s x v hv => ?_,
    fun a ha v hv => (h.items a ha v hv).mono hle, fun f => (h.functions f).mono hle⟩
  rw [scope_newScope] at hv
  exact (h.bindings s x v hv).mono hle

theorem follows_newScope (p : Policy) (σ : Store) (outer : List ScopeId) :
    σ.Follows p (σ.newScope outer).2 := by
  refine ⟨extent_le_newScope σ outer, fun a ha => rfl, fun s x hx => ?_, fun s x hx => .inl ?_⟩
  · rwa [scope_newScope]
  · rwa [scope_newScope] at hx

/-- A new scope may bind anything, so code may run in it. -/
theorem Obeys.active_enter (h : σ.Obeys p) (env : Env) :
    p.Active (σ.enter env).2.extent (σ.enter env).1 := by
  intro x
  change p.mayBind (σ.newScope env.chain).2.scopes.size ⟨σ.scopes.size⟩ x
  rw [size_newScope]
  exact p.mayBind_new h.base.2

theorem Obeys.newFunction (h : σ.Obeys p) {fn : Function} (hfn : fn.Within p σ.extent) :
    (σ.newFunction fn).2.Obeys p := by
  refine ⟨h.base, h.bindings, h.items, fun f => ?_⟩
  rw [function_newFunction]
  split
  · exact hfn
  · exact h.functions f

theorem follows_newFunction (p : Policy) (σ : Store) (fn : Function) :
    σ.Follows p (σ.newFunction fn).2 :=
  ⟨Extent.le_refl _, fun _ _ => rfl, fun _ _ hx => hx, fun _ _ hx => .inl hx⟩

/-! ### Changes

A change keeps the extent, so values may mention what they could before. -/

theorem extent_modifyArray (σ : Store) (a : ArrayId) (g : Array Value → Array Value) :
    (σ.modifyArray a g).extent = σ.extent :=
  congrArg (Extent.mk · σ.scopes.size) (size_modifyArray σ a g)

theorem extent_modifyScope (σ : Store) (s : ScopeId) (g : Scope → Scope) :
    (σ.modifyScope s g).extent = σ.extent :=
  congrArg (Extent.mk σ.arrays.size) (size_modifyScope σ s g)

theorem Obeys.modifyArray (h : σ.Obeys p) (a : ArrayId) {g : Array Value → Array Value}
    (hg : ∀ v ∈ g (σ.items a), v.Within p σ.extent) : (σ.modifyArray a g).Obeys p := by
  have hextent := extent_modifyArray σ a g
  refine ⟨hextent ▸ h.base, hextent ▸ h.bindings, fun b hb v hv => ?_, hextent ▸ h.functions⟩
  rw [hextent]
  rw [items_modifyArray] at hv
  split at hv
  · exact hg v hv
  · exact h.items b hb v hv

theorem follows_modifyArray {a : ArrayId} (ha : ¬ p.closed a) (g : Array Value → Array Value) :
    σ.Follows p (σ.modifyArray a g) := by
  refine ⟨extent_modifyArray σ a g ▸ Extent.le_refl _, fun b hb => ?_, fun s x hx => hx,
    fun s x hx => .inl hx⟩
  rw [items_modifyArray, if_neg]
  rintro ⟨rfl, -⟩
  exact ha hb

theorem Obeys.modifyScope (h : σ.Obeys p) (s : ScopeId) {g : Scope → Scope}
    (hg : ∀ x v, (g (σ.scope s)).find? x = some v → v.Within p σ.extent) :
    (σ.modifyScope s g).Obeys p := by
  have hextent := extent_modifyScope σ s g
  refine ⟨hextent ▸ h.base, fun t x v hv => ?_, hextent ▸ h.items, hextent ▸ h.functions⟩
  rw [hextent]
  rw [scope_modifyScope] at hv
  split at hv
  · exact hg x v hv
  · exact h.bindings t x v hv

theorem Obeys.define (h : σ.Obeys p) {s : ScopeId} {x : String} {v : Value}
    (hv : v.Within p σ.extent) :
    (σ.modifyScope s (·.define x v)).Obeys p := by
  refine h.modifyScope s fun y w hw => ?_
  rw [Scope.find?_define] at hw
  split at hw
  · cases hw
    exact hv
  · exact h.bindings s y w hw

/-- Binding a name that is bound already changes no set of names. -/
theorem follows_define {s : ScopeId} {x : String} (v : Value)
    (hx : (σ.scope s).contains x = true ∨ p.mayBind σ.scopes.size s x) :
    σ.Follows p (σ.modifyScope s (·.define x v)) := by
  refine ⟨extent_modifyScope σ s _ ▸ Extent.le_refl _, fun a ha => rfl, fun t y hy => ?_,
    fun t y hy => ?_⟩
  · rw [scope_modifyScope]
    split
    · next hts =>
      rw [hts.1] at hy
      rw [Scope.contains_define, hy, Bool.or_true]
    · exact hy
  · rw [size_modifyScope]
    rw [scope_modifyScope] at hy
    split at hy
    · next hts =>
      rw [hts.1]
      rw [Scope.contains_define, Bool.or_eq_true, decide_eq_true_eq] at hy
      rcases hy with rfl | hy
      · exact hx
      · exact .inl hy
    · exact .inl hy

/-- A name is set where it is bound, or else where its reference says. -/
theorem follows_set {env : Env} {x : String} (v : Value)
    (henv : p.mayBind σ.scopes.size env.here x) :
    σ.Follows p (σ.set env x v) := by
  rw [set_eq]
  apply follows_define
  unfold setter
  cases hb : σ.binder? env.chain x with
  | some s => exact .inl (contains_of_binder? hb)
  | none => exact .inr henv

end Store

/-! ## 3. Closed stores -/

def Policy.inside : Policy where
  base := ⟨0, 0⟩
  array k a := a.index < k
  closed _ := False
  mayBind k s _ := s.index < k
  array_mono hkl h := Nat.lt_of_lt_of_le h hkl
  array_new _ := Nat.lt_succ_self _
  not_closed _ h := h
  mayBind_mono hkl h := Nat.lt_of_lt_of_le h hkl
  mayBind_new _ := Nat.lt_succ_self _

/-- A store all of whose arrays and scopes exist. -/
def Store.Closed (σ : Store) : Prop := σ.Obeys .inside

def Value.ClosedIn (σ : Store) (v : Value) : Prop := v.Within .inside σ.extent

def Reference.ClosedIn (σ : Store) (r : Reference) : Prop := r.Within .inside σ.extent

end Scriptlet
