import Scriptlet.Proofs.StoreLaws
import Scriptlet.Store.Read
import Mathlib.Data.Finset.Prod

/-!
# Readings that end

A reading has fuel, and gives nothing if the fuel runs out.  More fuel keeps what was read
(`Store.resolve_mono`), so a value resolves to at most one value, whatever the fuel.  A store is
settled if all its elements resolve to something.  It has finitely many, so one amount of fuel is
enough for all of them, and what a walk over its arrays needs beyond that is bounded by the number
of arrays that it can still mark.

Reads that follow more than 64 references give the unset value (§10.6 of the specification), so a
reading that does not settle is one whose indices go around in a circle.
-/

namespace Scriptlet

/-! ## 1. More fuel

Every walk gives with more fuel what it gives with less, if that is anything. -/

/-- Whatever the first way to read locations reads, the second one reads too. -/
def Reader.ExtendedBy (slot slot' : Reader) : Prop := ∀ r v, slot r = some v → slot' r = some v

namespace Walk

variable {σ : Store} {slot slot' : Reader}

theorem follow_mono (hslot : Reader.ExtendedBy slot slot') (hops : Nat) :
    ∀ {v w : Value}, follow slot hops v = some w → follow slot' hops v = some w := by
  induction hops with
  | zero =>
    intro v w h
    cases v <;> exact h
  | succ hops ih =>
    intro v w h
    cases v with
    | reference r =>
      simp only [follow, Option.bind_eq_bind, Option.bind_eq_some_iff] at h ⊢
      obtain ⟨u, hu, hw⟩ := h
      exact ⟨u, hslot r u hu, ih hw⟩
    | _ => exact h

theorem mapM_mono {f g : Value → Option String} (hfg : ∀ v s, f v = some s → g v = some s) :
    ∀ {vs : List Value} {ts : List String}, vs.mapM f = some ts → vs.mapM g = some ts
  | [], _, h => h
  | v :: vs, ts, h => by
    simp only [List.mapM_cons, Option.bind_eq_bind, Option.bind_eq_some_iff] at h ⊢
    obtain ⟨s, hs, ss, hss, h⟩ := h
    exact ⟨s, hfg v s hs, ss, mapM_mono hfg hss, h⟩

theorem joinTexts_mono {f g : Value → Option String} (hfg : ∀ v s, f v = some s → g v = some s)
    {separator t : String} {vs : List Value} (h : joinTexts f separator vs = some t) :
    joinTexts g separator vs = some t := by
  obtain ⟨ts, hts, rfl⟩ := Option.map_eq_some_iff.1 h
  exact Option.map_eq_some_iff.2 ⟨ts, mapM_mono hfg hts, rfl⟩

theorem render_mono (hslot : Reader.ExtendedBy slot slot') {n m : Nat} (hnm : n ≤ m) :
    ∀ {inner : List ArrayId} {v : Value} {t : String},
      render σ slot n inner v = some t → render σ slot' m inner v = some t := by
  induction n generalizing m with
  | zero =>
    intro inner v t h
    cases h
  | succ n ih =>
    intro inner v t h
    obtain ⟨m, rfl⟩ : ∃ k, m = k + 1 := Nat.exists_eq_add_one.2 (Nat.lt_of_lt_of_le n.succ_pos hnm)
    have hle : n ≤ m := Nat.le_of_succ_le_succ hnm
    cases v with
    | array a =>
      simp only [render] at h ⊢
      split at h
      · next hmem => rwa [if_pos hmem]
      · next hmem =>
        rw [if_neg hmem]
        exact joinTexts_mono (fun v s => ih hle) h
    | reference r =>
      simp only [render, Option.bind_eq_bind, Option.bind_eq_some_iff] at h ⊢
      obtain ⟨u, hu, ht⟩ := h
      exact ⟨u, follow_mono hslot hopLimit hu, ih hle ht⟩
    | _ => exact h

theorem number_mono (hslot : Reader.ExtendedBy slot slot') {n m : Nat} (hnm : n ≤ m) {v : Value}
    {k : Number} (h : number σ slot n v = some k) : number σ slot' m v = some k := by
  simp only [number, Option.bind_eq_bind, Option.bind_eq_some_iff] at h ⊢
  obtain ⟨w, hw, h⟩ := h
  refine ⟨w, follow_mono hslot hopLimit hw, ?_⟩
  cases w with
  | array a =>
    simp only [Option.bind_eq_some_iff] at h ⊢
    obtain ⟨t, ht, h⟩ := h
    exact ⟨t, render_mono hslot hnm ht, h⟩
  | _ => exact h

end Walk

namespace Store

variable {σ : Store}

/-- Fuel is used up by the bases and indices of elements only. -/
theorem slot_mono {n m : Nat} (hnm : n ≤ m) : Reader.ExtendedBy (σ.slot n) (σ.slot m) := by
  induction n generalizing m with
  | zero =>
    intro r v h
    cases h
  | succ n ih =>
    intro r v h
    obtain ⟨m, rfl⟩ : ∃ k, m = k + 1 := Nat.exists_eq_add_one.2 (Nat.lt_of_lt_of_le n.succ_pos hnm)
    have hle : n ≤ m := Nat.le_of_succ_le_succ hnm
    cases r with
    | direct u => exact h
    | binding env x => exact h
    | element base index =>
      simp only [slot, Option.bind_eq_bind, Option.bind_eq_some_iff] at h ⊢
      obtain ⟨u, hu, w, hw, k, hk, h⟩ := h
      exact ⟨u, ih hle base u hu, w, Walk.follow_mono (ih hle) hopLimit hw, k,
        Walk.number_mono (ih hle) hle hk, h⟩

theorem resolve_mono {n m : Nat} (hnm : n ≤ m) {v w : Value} (h : σ.resolve n v = some w) :
    σ.resolve m v = some w :=
  Walk.follow_mono (slot_mono hnm) hopLimit h

/-! ## 2. What a value resolves to -/

/-- The value behind a value, for any fuel that is enough to find it. -/
def ResolvesTo (σ : Store) (v w : Value) : Prop := ∃ fuel, σ.resolve fuel v = some w

def Settles (σ : Store) (v : Value) : Prop := ∃ w, σ.ResolvesTo v w

/-- Following references comes to an end from all that is stored in arrays. -/
def Settled (σ : Store) : Prop := ∀ a, ∀ v ∈ σ.items a, σ.Settles v

/-- Two amounts of fuel that are enough agree with the larger one of them. -/
theorem ResolvesTo.unique {v w u : Value} (hw : σ.ResolvesTo v w) (hu : σ.ResolvesTo v u) :
    w = u := by
  obtain ⟨n, hn⟩ := hw
  obtain ⟨m, hm⟩ := hu
  have hleft := resolve_mono (Nat.le_max_left n m) hn
  have hright := resolve_mono (Nat.le_max_right n m) hm
  exact Option.some.inj (hleft.symm.trans hright)

theorem exists_fuel_of_settles :
    ∀ vs : List Value, (∀ v ∈ vs, σ.Settles v) →
      ∃ bound, ∀ n, bound ≤ n → ∀ v ∈ vs, ∃ w, σ.resolve n v = some w
  | [], _ => ⟨0, fun _ _ _ hv => nomatch hv⟩
  | v :: vs, h => by
    obtain ⟨w, k, hk⟩ := h v (by simp)
    obtain ⟨bound, hbound⟩ := exists_fuel_of_settles vs fun u hu => h u (by simp [hu])
    refine ⟨max k bound, fun n hn u hu => ?_⟩
    rcases List.mem_cons.1 hu with rfl | hu
    · exact ⟨w, resolve_mono (Nat.le_trans (Nat.le_max_left _ _) hn) hk⟩
    · exact hbound n (Nat.le_trans (Nat.le_max_right _ _) hn) u hu

theorem exists_row_of_mem {a : ArrayId} {v : Value} (hv : v ∈ σ.items a) :
    ∃ row, σ.arrays[a.index]? = some row ∧ v ∈ row := by
  unfold items at hv
  cases ha : σ.arrays[a.index]? with
  | none => simp [ha] at hv
  | some row =>
    rw [ha, Option.getD_some] at hv
    exact ⟨row, rfl, hv⟩

/-- One amount of fuel for all elements, since they are finitely many. -/
theorem Settled.exists_fuel (hσ : σ.Settled) :
    ∃ bound, ∀ n, bound ≤ n → ∀ a, ∀ v ∈ σ.items a, ∃ w, σ.resolve n v = some w := by
  -- All elements of all arrays, in one list.
  have hall : ∀ a, ∀ v ∈ σ.items a, v ∈ σ.arrays.toList.flatMap Array.toList := by
    intro a v hv
    obtain ⟨row, hrow, hv⟩ := exists_row_of_mem hv
    exact List.mem_flatMap.2 ⟨row, Array.mem_toList_iff.2 (Array.mem_of_getElem? hrow),
      Array.mem_toList_iff.2 hv⟩
  obtain ⟨bound, hbound⟩ := exists_fuel_of_settles (σ.arrays.toList.flatMap Array.toList)
    fun v hv => by
      obtain ⟨row, hrow, hv⟩ := List.mem_flatMap.1 hv
      obtain ⟨i, hi⟩ := Array.mem_iff_getElem?.1 (Array.mem_toList_iff.1 hrow)
      refine hσ ⟨i⟩ v ?_
      rw [items, hi]
      exact Array.mem_toList_iff.1 hv
  exact ⟨bound, fun n hn a v hv => hbound n hn v (hall a v hv)⟩

/-! ## 3. Room for marks

A walk over arrays marks those that it is in, and marks none twice. -/

def arrayIds (σ : Store) : Finset ArrayId := (Finset.range σ.arrays.size).image ArrayId.mk

theorem mem_arrayIds {a : ArrayId} : a ∈ σ.arrayIds ↔ a.index < σ.arrays.size := by
  obtain ⟨i⟩ := a
  simp [arrayIds]

theorem mem_arrayIds_of_mem {a : ArrayId} {v : Value} (hv : v ∈ σ.items a) : a ∈ σ.arrayIds := by
  obtain ⟨row, hrow, -⟩ := exists_row_of_mem hv
  exact mem_arrayIds.2 (Array.getElem?_eq_some_iff.1 hrow).1

end Store

namespace Walk

variable {α : Type} [DecidableEq α] {U : Finset α} {marks marks' : List α}

/-- How many members of a finite set carry no mark yet. -/
def room (U : Finset α) (marks : List α) : Nat := (U \ marks.toFinset).card

/-- A new mark takes up room. -/
theorem room_cons_lt {x : α} (hx : x ∈ U) (hnew : x ∉ marks) :
    room U (x :: marks) < room U marks := by
  unfold room
  rw [List.toFinset_cons, Finset.sdiff_insert]
  apply Finset.card_erase_lt_of_mem
  simp [hx, hnew]

theorem room_anti (h : ∀ x ∈ marks, x ∈ marks') : room U marks' ≤ room U marks := by
  apply Finset.card_le_card
  apply Finset.sdiff_subset_sdiff (Finset.Subset.refl U)
  intro x hx
  exact List.mem_toFinset.2 (h x (List.mem_toFinset.1 hx))

end Walk
end Scriptlet
