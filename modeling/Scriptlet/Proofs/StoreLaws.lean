import Scriptlet.Store

/-!
# What the operations on a store change, and what they leave alone

Reading an identifier that was never given out gives something empty, so most equations hold for
every identifier and need no bounds.

Arrays are shared and scopes are chained as in §4.4 and §4.7 of the specification: an operation
touches one cell, and everything else reads as before.
-/

namespace Scriptlet

/-! ## 1. Scopes

A scope is a list of bindings in which no name is entered twice, so that defining a name again
changes its binding in place. -/

namespace Scope

theorem contains_iff {s : Scope} {x : String} : s.contains x = true ↔ ∃ v, s.find? x = some v := by
  simp [contains, Option.isSome_iff_exists]

theorem find?_eq_none_iff {s : Scope} {x : String} : s.find? x = none ↔ s.contains x = false := by
  simp [contains]

@[simp] theorem find?_empty (x : String) : empty.find? x = none := rfl

theorem lookup_cons (z y : String) (w : Value) (bs : List (String × Value)) :
    ((z, w) :: bs).lookup y = if y = z then some w else bs.lookup y := by
  by_cases h : y = z
  · simp [h]
  · have hbeq : (y == z) = false := by simpa using h
    simp [List.lookup_cons, h, hbeq]

/-- Rebinding keeps the names in place, so it acts on each binding by itself. -/
theorem lookup_rebind (bs : List (String × Value)) (x y : String) (v : Value) :
    (bs.map fun b => if b.1 = x then (x, v) else b).lookup y =
      if y = x then (bs.lookup x).map fun _ => v else bs.lookup y := by
  induction bs with
  | nil => simp
  | cons b bs ih =>
    obtain ⟨z, w⟩ := b
    by_cases hz : z = x
    · subst hz
      by_cases hy : y = z <;> simp [lookup_cons, hy, ih]
    · by_cases hy : y = x
      · subst hy
        simp [lookup_cons, hz, Ne.symm hz, ih]
      · simp [lookup_cons, hz, hy, ih]

theorem find?_define (s : Scope) (x y : String) (v : Value) :
    (s.define x v).find? y = if y = x then some v else s.find? y := by
  unfold define
  split
  · next h =>
    obtain ⟨w, hw⟩ := contains_iff.1 h
    rw [find?] at hw
    simp only [find?, lookup_rebind, hw, Option.map_some]
  · simp only [find?, lookup_cons]

theorem contains_define (s : Scope) (x y : String) (v : Value) :
    (s.define x v).contains y = (decide (y = x) || s.contains y) := by
  unfold contains
  rw [find?_define]
  by_cases hy : y = x <;> simp [hy]

theorem find?_remove (s : Scope) (x y : String) :
    (s.remove x).find? y = if y = x then none else s.find? y := by
  obtain ⟨bs⟩ := s
  simp only [find?, remove]
  induction bs with
  | nil => simp
  | cons b bs ih =>
    obtain ⟨z, w⟩ := b
    by_cases hz : z = x
    · subst hz
      rw [List.filter_cons_of_neg (by simp), ih, lookup_cons]
      by_cases hy : y = z <;> simp [hy]
    · rw [List.filter_cons_of_pos (by simpa using hz), lookup_cons, lookup_cons, ih]
      by_cases hy : y = x
      · subst hy
        simp [Ne.symm hz]
      · simp [hy]

end Scope

namespace Store

/-! ## 2. Parts of a store after an operation

One equation for each reader and each operation that it can see. -/

variable (σ : Store)

theorem items_of_size_le {a : ArrayId} (h : σ.arrays.size ≤ a.index) : σ.items a = #[] := by
  simp [items, h]

theorem scope_of_size_le {s : ScopeId} (h : σ.scopes.size ≤ s.index) : σ.scope s = .empty := by
  simp [scope, h]

@[simp] theorem size_newArray (items : Array Value) :
    (σ.newArray items).2.arrays.size = σ.arrays.size + 1 := Array.size_push _

@[simp] theorem size_modifyArray (a : ArrayId) (g : Array Value → Array Value) :
    (σ.modifyArray a g).arrays.size = σ.arrays.size := Array.size_modify

@[simp] theorem size_newScope (outer : List ScopeId) :
    (σ.newScope outer).2.scopes.size = σ.scopes.size + 1 := Array.size_push _

@[simp] theorem size_modifyScope (s : ScopeId) (g : Scope → Scope) :
    (σ.modifyScope s g).scopes.size = σ.scopes.size := Array.size_modify

theorem items_newArray (items : Array Value) (a : ArrayId) :
    (σ.newArray items).2.items a = if a = (σ.newArray items).1 then items else σ.items a := by
  obtain ⟨i⟩ := a
  by_cases h : i = σ.arrays.size
  · simp [newArray, Store.items, h]
  · simp [newArray, Store.items, Array.getElem?_push, h]

theorem items_modifyArray (a b : ArrayId) (g : Array Value → Array Value) :
    (σ.modifyArray a g).items b =
      if b = a ∧ a.index < σ.arrays.size then g (σ.items a) else σ.items b := by
  obtain ⟨i⟩ := a
  obtain ⟨j⟩ := b
  simp only [modifyArray, Store.items, ArrayId.mk.injEq, Array.getElem?_modify]
  -- An identifier beyond the arrays names nothing, so nothing is modified there.
  by_cases h : j = i
  · subst h
    by_cases hj : j < σ.arrays.size
    · simp [hj]
    · simp [hj]
  · simp [h, Ne.symm h]

/-- A new scope is empty, as a scope that does not exist. -/
@[simp] theorem scope_newScope (outer : List ScopeId) (s : ScopeId) :
    (σ.newScope outer).2.scope s = σ.scope s := by
  obtain ⟨i⟩ := s
  simp only [newScope, scope, Array.getElem?_push]
  by_cases h : i = σ.scopes.size
  · simp [h]
  · simp [h]

theorem scope_modifyScope (s t : ScopeId) (g : Scope → Scope) :
    (σ.modifyScope s g).scope t =
      if t = s ∧ s.index < σ.scopes.size then g (σ.scope s) else σ.scope t := by
  obtain ⟨i⟩ := s
  obtain ⟨j⟩ := t
  simp only [modifyScope, Store.scope, ScopeId.mk.injEq, Array.getElem?_modify]
  by_cases h : j = i
  · subst h
    by_cases hj : j < σ.scopes.size
    · simp [hj]
    · simp [hj]
  · simp [h, Ne.symm h]

theorem function_newFunction (fn : Function) (f : FunctionId) :
    (σ.newFunction fn).2.function f = if f = (σ.newFunction fn).1 then fn else σ.function f := by
  obtain ⟨i⟩ := f
  by_cases h : i = σ.functions.size
  · simp [newFunction, function, h]
  · simp [newFunction, function, Array.getElem?_push, h]

variable {σ}

theorem lt_size_of_find? {s : ScopeId} {x : String} {v : Value} (h : (σ.scope s).find? x = some v) :
    s.index < σ.scopes.size := by
  apply Nat.lt_of_not_le
  intro hle
  rw [scope_of_size_le σ hle] at h
  cases h

theorem lt_size_of_contains {s : ScopeId} {x : String} (h : (σ.scope s).contains x = true) :
    s.index < σ.scopes.size := by
  obtain ⟨v, hv⟩ := Scope.contains_iff.1 h
  exact lt_size_of_find? hv

/-! ## 3. Looking up and setting names

Both go by the first scope of the chain that binds the name, and setting an unbound name binds it
here. -/

/-- A name is looked up in the scope that binds it. -/
theorem lookup_eq (env : Env) (x : String) :
    σ.lookup env x = (σ.binder? env.chain x).bind fun s => (σ.scope s).find? x := by
  unfold lookup binder?
  induction env.chain with
  | nil => rfl
  | cons s chain ih =>
    rw [List.findSome?_cons, List.find?_cons]
    cases h : (σ.scope s).find? x with
    | none =>
      rw [Scope.find?_eq_none_iff.1 h]
      exact ih
    | some v =>
      rw [Scope.contains_iff.2 ⟨v, h⟩]
      exact h.symm

theorem contains_of_binder? {chain : List ScopeId} {x : String} {s : ScopeId}
    (h : σ.binder? chain x = some s) : (σ.scope s).contains x = true := by
  have hs := List.find?_some h
  exact hs

/-- The scope whose binding of a name is set. -/
def setter (σ : Store) (env : Env) (x : String) : ScopeId := (σ.binder? env.chain x).getD env.here

theorem set_eq (env : Env) (x : String) (v : Value) :
    σ.set env x v = σ.modifyScope (σ.setter env x) (·.define x v) := by
  unfold set setter
  cases σ.binder? env.chain x <;> rfl

theorem lookup_eq_setter (env : Env) (x : String) :
    σ.lookup env x = (σ.scope (σ.setter env x)).find? x := by
  rw [lookup_eq]
  unfold setter
  cases h : σ.binder? env.chain x with
  | some s => rfl
  -- Not bound in the chain means not bound here.
  | none =>
    have hhere := List.find?_eq_none.1 h env.here (by simp [Env.chain])
    simp only [Bool.not_eq_true] at hhere
    simp [Scope.find?_eq_none_iff.2 hhere]

/-! ## 4. Stores with more arrays -/

/-- The store `ρ` is `σ` with some more arrays. -/
structure ExtendedBy (σ ρ : Store) : Prop where
  scopes : ρ.scopes = σ.scopes
  functions : ρ.functions = σ.functions
  size : σ.arrays.size ≤ ρ.arrays.size
  kept : ∀ a, a.index < σ.arrays.size → ρ.items a = σ.items a

theorem ExtendedBy.refl (σ : Store) : σ.ExtendedBy σ := ⟨rfl, rfl, Nat.le_refl _, fun _ _ => rfl⟩

theorem ExtendedBy.newArray {σ ρ : Store} (h : σ.ExtendedBy ρ) (items : Array Value) :
    σ.ExtendedBy (ρ.newArray items).2 := by
  refine ⟨h.scopes, h.functions, Nat.le_trans h.size (by simp), fun a ha => ?_⟩
  rw [items_newArray, if_neg, h.kept a ha]
  rintro rfl
  exact Nat.not_lt.2 h.size ha

theorem ExtendedBy.scope_eq {σ ρ : Store} (h : σ.ExtendedBy ρ) (s : ScopeId) :
    ρ.scope s = σ.scope s := by
  rw [scope, h.scopes, scope]

theorem ExtendedBy.function_eq {σ ρ : Store} (h : σ.ExtendedBy ρ) (f : FunctionId) :
    ρ.function f = σ.function f := by
  rw [function, h.functions, function]

end Store
end Scriptlet
