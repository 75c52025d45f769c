import Scriptlet.Proofs.StoreLaws
import Scriptlet.Store.Copy

/-!
# What a deep copy consists of

A copy holds no references, and its arrays are new: all of them are mentioned only by each other,
and all of them are reached from the copy.  The copying walk numbers its arrays before it fills
them, so its invariant speaks of a range of numbers (`Copies.Grows`): what a step of the walk adds
is reached from the values that the step returns, in every store that holds the added arrays at
their numbers.

Copies are made where a result leaves a run, so that no later run can change it (§10.6 of the
specification).
-/

namespace Scriptlet

/-! ## 1. Reachable arrays -/

/-- The arrays that a value leads to through elements of arrays.  References are not followed. -/
inductive Store.Reaches (σ : Store) : Value → ArrayId → Prop
  | self (a : ArrayId) : Reaches σ (.array a) a
  | item {a b : ArrayId} {v : Value} (hv : v ∈ σ.items a) (hb : Reaches σ v b) :
      Reaches σ (.array a) b

/-- A value that holds no reference, and no array but those numbered from `lo` up to `hi`. -/
def Value.IsCopy (lo hi : Nat) : Value → Prop
  | .array a => lo ≤ a.index ∧ a.index < hi
  | .reference _ => False
  | _ => True

theorem Value.IsCopy.mono {lo hi hi' : Nat} (h : hi ≤ hi') {v : Value} (hv : v.IsCopy lo hi) :
    v.IsCopy lo hi' := by
  cases v with
  | array a => exact ⟨hv.1, Nat.lt_of_lt_of_le hv.2 h⟩
  | reference r => exact hv
  | _ => trivial

theorem Value.IsCopy.isReference {lo hi : Nat} {v : Value} (hv : v.IsCopy lo hi) :
    v.isReference = false := by
  cases v with
  | reference r => exact hv.elim
  | _ => rfl

/-- Following references never ends at one. -/
theorem Walk.follow_isReference {slot : Reader} (hops : Nat) :
    ∀ {v w : Value}, follow slot hops v = some w → w.isReference = false := by
  induction hops with
  | zero =>
    intro v w h
    cases v <;> simp only [follow, Option.some.injEq] at h <;> subst h <;> rfl
  | succ hops ih =>
    intro v w h
    cases v with
    | reference r =>
      simp only [follow, Option.bind_eq_bind, Option.bind_eq_some_iff] at h
      obtain ⟨u, -, h⟩ := h
      exact ih h
    | _ =>
      simp only [follow, Option.some.injEq] at h
      subst h
      rfl

/-! ## 2. The copying walk

An array is reserved before its elements are copied, so that a way back to it finds the copy and not
the original. -/

structure Copies.Sound (lo : Nat) (c : Copies) : Prop where
  made : ∀ a b, c.made.lookup a = some b → lo ≤ b.index ∧ b.index < lo + c.fresh.size
  items : ∀ (j : Nat) items, c.fresh[j]? = some items → ∀ v ∈ items, v.IsCopy lo (lo + c.fresh.size)

/-- A step of a copy from the state `c` to `d` with the values `ws`. -/
structure Copies.Grows (lo : Nat) (c d : Copies) (ws : List Value) : Prop where
  sound : d.Sound lo
  size : c.fresh.size ≤ d.fresh.size
  kept : ∀ j < c.fresh.size, d.fresh[j]? = c.fresh[j]?
  copied : ∀ w ∈ ws, w.IsCopy lo (lo + d.fresh.size)
  reached : ∀ ρ : Store,
    (∀ j, c.fresh.size ≤ j → j < d.fresh.size → d.fresh[j]? = some (ρ.items ⟨lo + j⟩)) →
    ∀ j, c.fresh.size ≤ j → j < d.fresh.size → ∃ w ∈ ws, ρ.Reaches w ⟨lo + j⟩

namespace Copies

variable {lo : Nat} {c d e : Copies}

/-- A step that makes no array. -/
theorem Grows.refl (hc : c.Sound lo) {ws : List Value}
    (hws : ∀ w ∈ ws, w.IsCopy lo (lo + c.fresh.size)) :
    c.Grows lo c ws :=
  ⟨hc, Nat.le_refl _, fun _ _ => rfl, hws, fun _ _ _ hj hj' => absurd hj' (Nat.not_lt.2 hj)⟩

/-- Two steps, one after the other. -/
theorem Grows.cons {w : Value} {ws : List Value} (h₁ : c.Grows lo d [w]) (h₂ : d.Grows lo e ws) :
    c.Grows lo e (w :: ws) := by
  refine ⟨h₂.sound, Nat.le_trans h₁.size h₂.size, fun j hj => ?_, fun u hu => ?_,
    fun ρ hρ j hj hj' => ?_⟩
  · rw [h₂.kept j (Nat.lt_of_lt_of_le hj h₁.size), h₁.kept j hj]
  · rcases List.mem_cons.1 hu with rfl | hu
    · exact (h₁.copied u (by simp)).mono (Nat.add_le_add_left h₂.size lo)
    · exact h₂.copied u hu
  · -- What the first step added is still there after the second.
    by_cases hjd : j < d.fresh.size
    · obtain ⟨u, hu, hreach⟩ := h₁.reached ρ (fun i hi hid => by
        rw [← h₂.kept i hid]
        exact hρ i hi (Nat.lt_of_lt_of_le hid h₂.size)) j hj hjd
      exact ⟨u, List.mem_cons.2 (.inl (List.mem_singleton.1 hu)), hreach⟩
    · obtain ⟨u, hu, hreach⟩ := h₂.reached ρ (fun i hi hie => hρ i (Nat.le_trans h₁.size hi) hie) j
        (Nat.not_lt.1 hjd) hj'
      exact ⟨u, List.mem_cons_of_mem w hu, hreach⟩

/-- The state in which the array `a` has been given a number, and is still empty. -/
def reserve (lo : Nat) (c : Copies) (a : ArrayId) : Copies :=
  ⟨(a, ⟨lo + c.fresh.size⟩) :: c.made, c.fresh.push #[]⟩

/-- An empty array may be given the next number. -/
theorem Sound.reserve (hc : c.Sound lo) (a : ArrayId) : (c.reserve lo a).Sound lo := by
  have hsize : (c.reserve lo a).fresh.size = c.fresh.size + 1 := Array.size_push _
  refine ⟨fun a' b hb => ?_, fun j items hj v hv => ?_⟩
  · rw [hsize]
    unfold Copies.reserve at hb
    rw [List.lookup_cons] at hb
    split at hb
    · cases hb
      exact ⟨Nat.le_add_right _ _, by simp⟩
    · have hold := hc.made a' b hb
      omega
  · rw [hsize]
    unfold Copies.reserve at hj
    rw [Array.getElem?_push] at hj
    split at hj
    · cases hj
      simp at hv
    · exact (hc.items j items hj v hv).mono (by omega)

/-- Once the elements of an array are copied, they are put into its place. -/
theorem Grows.fill {a : ArrayId} {ws : List Value} (h : (c.reserve lo a).Grows lo d ws) :
    c.Grows lo { d with fresh := d.fresh.setIfInBounds c.fresh.size ws.toArray }
      [.array ⟨lo + c.fresh.size⟩] := by
  have hreserve : (c.reserve lo a).fresh.size = c.fresh.size + 1 := Array.size_push _
  have hplace : c.fresh.size < d.fresh.size := by
    have hsize := h.size
    omega
  refine ⟨⟨fun a' b hb => ?_, fun j items hj v hv => ?_⟩, ?_, fun j hj => ?_, fun w hw => ?_,
    fun ρ hρ j hj hj' => ?_⟩
  · simpa using h.sound.made a' b hb
  · simp only [Array.size_setIfInBounds]
    rw [Array.getElem?_setIfInBounds] at hj
    split at hj
    · cases hj
      exact h.copied v (by simpa using hv)
    · exact h.sound.items j items hj v hv
  · simpa using Nat.le_of_lt hplace
  · rw [Array.getElem?_setIfInBounds_ne (by omega), h.kept j (by omega)]
    exact Array.getElem?_push_lt hj ▸ (Array.getElem?_eq_getElem hj).symm
  · rw [List.mem_singleton.1 hw]
    exact ⟨Nat.le_add_right _ _, by simpa using hplace⟩
  · simp only [Array.size_setIfInBounds] at hρ hj'
    refine ⟨_, List.mem_singleton_self _, ?_⟩
    have hitems : ρ.items ⟨lo + c.fresh.size⟩ = ws.toArray := by
      have hfilled := hρ c.fresh.size (Nat.le_refl _) hplace
      rw [Array.getElem?_setIfInBounds_self_of_lt hplace] at hfilled
      exact (Option.some.inj hfilled).symm
    -- The filled array is the first of the new ones, and its elements lead to the others.
    rcases Nat.eq_or_lt_of_le hj with rfl | hlt
    · exact .self _
    · obtain ⟨w, hw, hreach⟩ := h.reached ρ (fun i hi hid => by
        have hi := hρ i (by omega) hid
        rwa [Array.getElem?_setIfInBounds_ne (by omega)] at hi) j (by omega) hj'
      refine .item ?_ hreach
      rw [hitems]
      simpa using hw

end Copies

namespace Walk

variable {σ : Store} {slot : Reader}

/-- A list is copied by steps that each start where the one before them ended. -/
theorem copyAll_grows {lo : Nat} {copy : Value → Copies → Option (Value × Copies)}
    (hcopy : ∀ v c w d, c.Sound lo → copy v c = some (w, d) → c.Grows lo d [w]) :
    ∀ vs {c ws d}, c.Sound lo → copyAll copy vs c = some (ws, d) → c.Grows lo d ws := by
  intro vs
  induction vs with
  | nil =>
    intro c ws d hc h
    cases h
    exact .refl hc fun w hw => by cases hw
  | cons v vs ih =>
    intro c ws d hc h
    simp only [copyAll, Option.bind_eq_bind, Option.bind_eq_some_iff, Prod.exists] at h
    obtain ⟨w, e, hw, us, d', hus, h⟩ := h
    cases h
    have hhead := hcopy v c w e hc hw
    exact hhead.cons (ih hhead.sound hus)

/-- By induction on the fuel: an array that is met again makes no array, and any other one is
reserved, has its elements copied and is filled. -/
theorem copy_grows (fuel : Nat) :
    ∀ v c w d, c.Sound σ.arrays.size → copy σ slot fuel v c = some (w, d) →
    c.Grows σ.arrays.size d [w] := by
  induction fuel with
  | zero =>
    intro v c w d _ h
    cases h
  | succ n ih =>
    intro v c w d hc h
    simp only [copy, Option.bind_eq_bind, Option.bind_eq_some_iff] at h
    obtain ⟨u, hu, h⟩ := h
    have hplain := follow_isReference hopLimit hu
    split at h
    · next a =>
      split at h
      · next b hb =>
        cases h
        refine .refl hc fun w hw => ?_
        rw [List.mem_singleton.1 hw]
        exact hc.made a b hb
      · simp only [Option.bind_eq_some_iff, Prod.exists] at h
        obtain ⟨ws, e, hws, h⟩ := h
        cases h
        exact (copyAll_grows ih _ (hc.reserve a) hws).fill
    · next hnot =>
      cases h
      refine .refl hc fun u hu => ?_
      rw [List.mem_singleton.1 hu]
      cases w with
      | array a => exact absurd rfl (hnot a)
      | reference r => cases hplain
      | _ => trivial

end Walk

/-! ## 3. Deep copies -/

/-- The value `w` in the store `τ` is a deep copy that was made in the store `σ`. -/
structure Store.CopiedTo (σ : Store) (w : Value) (τ : Store) : Prop extends σ.ExtendedBy τ where
  copied : w.IsCopy σ.arrays.size τ.arrays.size
  items : ∀ a, σ.arrays.size ≤ a.index → ∀ v ∈ τ.items a, v.IsCopy σ.arrays.size τ.arrays.size
  reached : ∀ a, σ.arrays.size ≤ a.index → a.index < τ.arrays.size → τ.Reaches w a

namespace Store

variable {σ τ : Store} {w : Value}

/-- What is copied is a deep copy. -/
theorem copiedTo_of_copy {fuel : Nat} {v : Value} (h : σ.copy fuel v = some (w, τ)) :
    σ.CopiedTo w τ := by
  simp only [copy, Option.bind_eq_bind, Option.bind_eq_some_iff, Prod.exists] at h
  obtain ⟨w', c, hc, h⟩ := h
  cases h
  have hinit : Copies.Sound σ.arrays.size ⟨[], #[]⟩ :=
    ⟨fun a b hb => (by cases hb), fun j items hj => (by simp at hj)⟩
  have hgrows := Walk.copy_grows fuel v _ w c hinit hc
  -- The new arrays stand behind the old ones, at the numbers that the walk gave them.
  have hnew : ∀ j, j < c.fresh.size →
      c.fresh[j]? = some (items { σ with arrays := σ.arrays ++ c.fresh } ⟨σ.arrays.size + j⟩) := by
    intro j hj
    simp [items, hj]
  refine ⟨⟨rfl, rfl, by simp, fun a ha => ?_⟩, ?_, fun a ha v hv => ?_, fun a ha ha' => ?_⟩
  · simp [items, Array.getElem?_append_left ha]
  · simpa using hgrows.copied w (by simp)
  · obtain ⟨j, hj⟩ := Nat.exists_eq_add_of_le ha
    obtain ⟨i⟩ := a
    cases hj
    simp only [Array.size_append]
    by_cases hlt : j < c.fresh.size
    · exact hgrows.sound.items j _ (hnew j hlt) v hv
    · rw [items_of_size_le _ (by simpa using Nat.not_lt.1 hlt)] at hv
      simp at hv
  · obtain ⟨j, hj⟩ := Nat.exists_eq_add_of_le ha
    obtain ⟨i⟩ := a
    cases hj
    obtain ⟨u, hu, hreach⟩ :=
      hgrows.reached _ (fun i _ hi => hnew i hi) j (Nat.zero_le _) (by simpa using ha')
    rwa [List.mem_singleton.1 hu] at hreach

/-- A copy leads to nothing but new arrays. -/
theorem CopiedTo.bounds_of_reaches (h : σ.CopiedTo w τ) {u : Value} {a : ArrayId}
    (hreach : τ.Reaches u a) (hu : u.IsCopy σ.arrays.size τ.arrays.size) :
    σ.arrays.size ≤ a.index ∧ a.index < τ.arrays.size := by
  induction hreach with
  | self a => exact hu
  | item hv _ ih => exact ih (h.items _ hu.1 _ hv)

end Store
end Scriptlet
