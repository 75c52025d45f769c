import Scriptlet.Proofs.Readings

/-!
# Readings of a closed store do not see new arrays

A store is closed if its values mention only arrays and scopes that exist.  A reading of such a
store visits only these, so it gives the same in every store that has more arrays.  The readings
depend on each other through the reading of one location, and so do their lemmas: each walk agrees
if the reading of a location does.
-/

namespace Scriptlet

/-! ## 1. Walks

Each walk is given a way to read locations, and all that matters is where this way agrees with
another one. -/

/-- Two ways to read locations agree on references that are closed in a store, and lead to closed
values. -/
structure Store.Agree (σ : Store) (slot slot' : Reader) : Prop where
  same : ∀ r : Reference, r.ClosedIn σ → slot' r = slot r
  closed : ∀ (r : Reference) (v : Value), r.ClosedIn σ → slot r = some v → v.ClosedIn σ

namespace Store.Agree

variable {σ ρ : Store} {slot slot' : Reader} (hagree : σ.Agree slot slot')
include hagree

theorem closed_of_follow {hops : Nat} {v w : Value} (hv : v.ClosedIn σ)
    (hw : Walk.follow slot hops v = some w) :
    w.ClosedIn σ :=
  Store.within_of_follow hagree.closed hops v w hv hw

theorem follow (hops : Nat) :
    ∀ v : Value, v.ClosedIn σ → Walk.follow slot' hops v = Walk.follow slot hops v := by
  induction hops with
  | zero =>
    intro v _
    cases v <;> rfl
  | succ hops ih =>
    intro v hv
    cases v with
    | reference r =>
      simp only [Walk.follow, hagree.same r hv]
      cases hr : slot r with
      | none => rfl
      | some w => exact ih w (hagree.closed r w hv hr)
    | _ => rfl

end Store.Agree

/-- Texts that agree element by element are joined to the same text. -/
theorem joinTexts_congr {f g : Value → Option String} {separator : String} {vs : List Value}
    (h : ∀ v ∈ vs, f v = g v) : Walk.joinTexts f separator vs = Walk.joinTexts g separator vs := by
  have hmap : vs.mapM f = vs.mapM g := by
    induction vs with
    | nil => rfl
    | cons v vs ih =>
      rw [List.mapM_cons, List.mapM_cons, h v (by simp), ih fun w hw => h w (by simp [hw])]
  rw [Walk.joinTexts, hmap, Walk.joinTexts]

theorem Store.ExtendedBy.plainText {σ ρ : Store} (hext : σ.ExtendedBy ρ) (v : Value) :
    Walk.plainText ρ v = Walk.plainText σ v := by
  cases v with
  | function f => simp only [Walk.plainText, functionText, hext.function_eq]
  | _ => rfl

namespace Store.Agree

variable {σ ρ : Store} {slot slot' : Reader} (hagree : σ.Agree slot slot') (hσ : σ.Closed)
  (hext : σ.ExtendedBy ρ)
include hagree hσ hext

/-- The elements of a closed store are closed, so the walk stays inside of it. -/
theorem render (fuel : Nat) : ∀ (inner : List ArrayId) (v : Value), v.ClosedIn σ →
    Walk.render ρ slot' fuel inner v = Walk.render σ slot fuel inner v := by
  induction fuel with
  | zero =>
    intro inner v _
    rfl
  | succ n ih =>
    intro inner v hv
    cases v with
    | array a =>
      simp only [Walk.render, hext.kept a hv]
      split
      · rfl
      · exact joinTexts_congr fun w hw => ih _ w (hσ.items a id w (Array.mem_toList_iff.1 hw))
    | reference r =>
      simp only [Walk.render, Walk.resolve, hagree.follow hopLimit _ hv]
      cases hw : Walk.follow slot hopLimit (.reference r) with
      | none => rfl
      | some w => exact ih inner w (hagree.closed_of_follow hv hw)
    | _ => simp only [Walk.render, hext.plainText]

theorem number (fuel : Nat) {v : Value} (hv : v.ClosedIn σ) :
    Walk.number ρ slot' fuel v = Walk.number σ slot fuel v := by
  simp only [Walk.number, Walk.resolve, hagree.follow hopLimit v hv]
  cases hw : Walk.follow slot hopLimit v with
  | none => rfl
  | some w =>
    have hclosed := hagree.closed_of_follow hv hw
    cases w with
    | array a =>
      simp only [Option.bind_eq_bind, Option.bind_some, hagree.render hσ hext fuel [] _ hclosed]
    | _ => rfl

end Store.Agree

/-! ## 2. Readings of a store -/

namespace Store

variable {σ ρ : Store}

theorem ExtendedBy.elementAt (hext : σ.ExtendedBy ρ) {v : Value} (hv : v.ClosedIn σ) (i : Nat) :
    ρ.elementAt v i = σ.elementAt v i := by
  cases v with
  | array a => simp only [Store.elementAt, hext.kept a hv]
  | _ => rfl

/-- Old arrays hold what they held, and no location that is closed leads to a new one. -/
theorem ExtendedBy.slot (hext : σ.ExtendedBy ρ) (hσ : σ.Closed) (fuel : Nat) :
    ∀ r : Reference, r.ClosedIn σ → ρ.slot fuel r = σ.slot fuel r := by
  induction fuel with
  | zero =>
    intro r _
    rfl
  | succ n ih =>
    intro r hr
    -- The base and the index of an element are read with less fuel, where locations read alike.
    have hagree : σ.Agree (σ.slot n) (ρ.slot n) := ⟨ih, hσ.slot n⟩
    cases r with
    | direct v => rfl
    | binding env x => simp only [Store.slot, Store.lookup, hext.scope_eq]
    | element base index =>
      simp only [Store.slot, ih base hr.1, Walk.resolve, hagree.number hσ hext n hr.2]
      cases hu : σ.slot n base with
      | none => rfl
      | some u =>
        have hclosed := hagree.closed base u hr.1 hu
        simp only [Option.bind_eq_bind, Option.bind_some, hagree.follow hopLimit u hclosed]
        cases hw : Walk.follow (σ.slot n) hopLimit u with
        | none => rfl
        | some w =>
          simp only [Option.bind_some, hext.elementAt (hagree.closed_of_follow hclosed hw)]

theorem ExtendedBy.agree (hext : σ.ExtendedBy ρ) (hσ : σ.Closed) (fuel : Nat) :
    σ.Agree (σ.slot fuel) (ρ.slot fuel) :=
  ⟨hext.slot hσ fuel, hσ.slot fuel⟩

theorem ExtendedBy.read (hext : σ.ExtendedBy ρ) (hσ : σ.Closed) {fuel : Nat} {r : Reference}
    (hr : r.ClosedIn σ) :
    ρ.read fuel r = σ.read fuel r := by
  simp only [Store.read, Store.resolve, Walk.resolve, hext.slot hσ fuel r hr]
  cases hv : σ.slot fuel r with
  | none => rfl
  | some v => exact (hext.agree hσ fuel).follow hopLimit v (hσ.slot fuel r v hr hv)

theorem ExtendedBy.toIndex (hext : σ.ExtendedBy ρ) (hσ : σ.Closed) {fuel : Nat} {v : Value}
    (hv : v.ClosedIn σ) :
    ρ.toIndex fuel v = σ.toIndex fuel v := by
  simp only [Store.toIndex, Store.toNumber, (hext.agree hσ fuel).number hσ hext fuel hv]

end Store
end Scriptlet
