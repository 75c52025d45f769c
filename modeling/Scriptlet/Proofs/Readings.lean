import Scriptlet.Proofs.Policy
import Scriptlet.Store.Operate

/-!
# Readings under a policy

What is read from a store that obeys a policy, through a value that does, obeys it too.  Operators
give scalars, which every policy allows.

No operator of §4.3 of the specification gives an array or a function.
-/

namespace Scriptlet

/-! ## 1. Values -/

/-- Whether a value mentions no identifier at all. -/
def Value.isScalar : Value → Bool
  | .invalid | .bool _ | .int _ | .float _ | .str _ => true
  | _ => false

theorem Value.within_of_isScalar {p : Policy} {k : Extent} {v : Value} (h : v.isScalar = true) :
    v.Within p k := by
  cases v <;> trivial

@[simp] theorem Value.isScalar_ofNumber (n : Number) : (Value.ofNumber n).isScalar = true := by
  cases n <;> rfl

/-! ## 2. Locations

A read gives something that a scope or an array of the store holds, so it is within a policy that
the store obeys. -/

namespace Store

variable {p : Policy} {σ : Store}

/-- Characters are scalars, and what is missing is unset. -/
theorem Obeys.elementAt (h : σ.Obeys p) {v : Value} (hv : v.Within p σ.extent) (i : Nat) :
    (σ.elementAt v i).Within p σ.extent := by
  unfold Store.elementAt
  split
  · next a =>
    cases hi : (σ.items a)[i]? with
    | none => trivial
    | some w => exact h.getElem? hv hi
  · split <;> trivial
  · trivial

/-- Each reference on the way leads to a value that obeys the policy. -/
theorem within_of_follow {slot : Reader}
    (hslot : ∀ r v, r.Within p σ.extent → slot r = some v → v.Within p σ.extent) (hops : Nat) :
    ∀ v w, v.Within p σ.extent → Walk.follow slot hops v = some w → w.Within p σ.extent := by
  induction hops with
  | zero =>
    intro v w hv hw
    cases v <;> simp only [Walk.follow, Option.some.injEq] at hw <;> subst hw <;>
      first | exact hv | trivial
  | succ hops ih =>
    intro v w hv hw
    cases v with
    | reference r =>
      simp only [Walk.follow, Option.bind_eq_bind, Option.bind_eq_some_iff] at hw
      obtain ⟨u, hu, hw⟩ := hw
      exact ih u w (hslot r u hv hu) hw
    | _ =>
      simp only [Walk.follow, Option.some.injEq] at hw
      subst hw
      exact hv

/-- A location is a part of something that obeys the policy, or a variable. -/
theorem Obeys.slot (h : σ.Obeys p) (fuel : Nat) :
    ∀ r v, r.Within p σ.extent → σ.slot fuel r = some v → v.Within p σ.extent := by
  induction fuel with
  | zero =>
    intro r v _ hv
    cases hv
  | succ n ih =>
    intro r v hr hv
    cases r with
    | direct w =>
      simp only [Store.slot, Option.some.injEq] at hv
      subst hv
      exact hr
    | binding env x =>
      simp only [Store.slot, Option.some.injEq] at hv
      subst hv
      cases hlookup : σ.lookup env x with
      | none => trivial
      | some w => exact h.lookup hlookup
    | element base index =>
      simp only [Store.slot, Option.bind_eq_bind, Option.bind_eq_some_iff] at hv
      obtain ⟨u, hu, w, hw, num, -, hv⟩ := hv
      have hbase : w.Within p σ.extent := within_of_follow ih hopLimit u w (ih base u hr.1 hu) hw
      split at hv <;> cases hv
      · exact h.elementAt hbase _
      · trivial

theorem Obeys.resolve (h : σ.Obeys p) {fuel : Nat} {v w : Value} (hv : v.Within p σ.extent)
    (hw : σ.resolve fuel v = some w) : w.Within p σ.extent :=
  within_of_follow (h.slot fuel) hopLimit v w hv hw

theorem Obeys.read (h : σ.Obeys p) {fuel : Nat} {r : Reference} {w : Value}
    (hr : r.Within p σ.extent) (hw : σ.read fuel r = some w) : w.Within p σ.extent := by
  simp only [Store.read, Option.bind_eq_bind, Option.bind_eq_some_iff] at hw
  obtain ⟨v, hv, hw⟩ := hw
  exact h.resolve (h.slot fuel r v hr hv) hw

theorem Obeys.subscript (h : σ.Obeys p) {fuel : Nat} {target index w : Value}
    (ht : target.Within p σ.extent) (hw : σ.subscript fuel target index = some w) :
    w.Within p σ.extent := by
  simp only [Store.subscript, Option.bind_eq_bind, Option.bind_eq_some_iff] at hw
  obtain ⟨i, -, hw⟩ := hw
  cases i with
  | none =>
    cases hw
    trivial
  | some i =>
    obtain ⟨v, hv, hw⟩ := Option.bind_eq_some_iff.1 hw
    exact h.resolve (h.elementAt (h.resolve ht hv) i) hw

/-! ## 3. Operators -/

theorem isScalar_of_numeric {fuel : Nat} {op : Number → Number → Number} {l r v : Value}
    (h : σ.numeric fuel op l r = some v) : v.isScalar = true := by
  simp only [numeric, Option.bind_eq_bind, Option.bind_eq_some_iff, Option.pure_def,
    Option.some.injEq] at h
  obtain ⟨m, -, n, -, rfl⟩ := h
  exact Value.isScalar_ofNumber _

theorem isScalar_of_bitwise {fuel : Nat} {op : Int64 → Int64 → Int64} {l r v : Value}
    (h : σ.bitwise fuel op l r = some v) : v.isScalar = true := by
  simp only [bitwise, Option.bind_eq_bind, Option.bind_eq_some_iff, Option.pure_def,
    Option.some.injEq] at h
  obtain ⟨m, -, n, -, rfl⟩ := h
  rfl

theorem isScalar_of_add {fuel : Nat} {l r v : Value} (h : σ.add fuel l r = some v) :
    v.isScalar = true := by
  simp only [add, Option.bind_eq_bind, Option.bind_eq_some_iff] at h
  obtain ⟨l', -, r', -, h⟩ := h
  split at h
  · simp only [Option.bind_eq_some_iff, Option.pure_def, Option.some.injEq] at h
    obtain ⟨s, -, t, -, rfl⟩ := h
    rfl
  · exact isScalar_of_numeric h

/-- No operator makes an array or passes one on. -/
theorem isScalar_of_arith {fuel : Nat} {op : ArithOp} {l r v : Value}
    (h : σ.arith fuel op l r = some v) : v.isScalar = true := by
  cases op with
  | add => exact isScalar_of_add h
  | sub | mul | div | mod => exact isScalar_of_numeric h
  | shl | shr | bitAnd | bitOr | bitXor => exact isScalar_of_bitwise h

theorem isScalar_of_map {α : Type} {f : α → Value} (hf : ∀ a, (f a).isScalar = true) {o : Option α}
    {v : Value} (h : o.map f = some v) : v.isScalar = true := by
  obtain ⟨a, -, rfl⟩ := Option.map_eq_some_iff.1 h
  exact hf a

theorem isScalar_of_step {fuel : Nat} {op : StepOp} {u v : Value} (h : σ.step fuel op u = some v) :
    v.isScalar = true :=
  isScalar_of_map (fun _ => Value.isScalar_ofNumber _) h

end Store
end Scriptlet
