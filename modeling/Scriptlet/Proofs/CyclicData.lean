import Mathlib.Logic.Relation
import Scriptlet.Proofs.Comparison
import Scriptlet.Proofs.CopyIsomorphism
import Scriptlet.Proofs.GroundedReadings
import Scriptlet.Proofs.Unfolding

/-!
# Walks over arrays that contain themselves

Each walk carries marks, and never sets one twice: identity marks the pairs of arrays that it has
opened, a text the arrays around it, a copy the arrays that have one.  So the number of arrays
bounds the steps, however the arrays lead to each other.  A comparison marks pairs as identity does,
but next to a number it goes from an array to its only element without a mark.  What bounds that
descent is that no array comes up on it twice, which has to be assumed: from an array that leads
back to itself in this way, the descent never ends.

That the walks end is what makes `===`, `Compare`, `ToString` and `copy` (§4.3 and §10.6 of the
specification) total on cyclic arrays; where the comparison does not end, neither does the program.
-/

namespace Scriptlet
namespace Store

/-! ## 1. Arrays with one element -/

def Wraps (σ : Store) (a b : ArrayId) : Prop :=
  ∃ v, (σ.items a).toList = [v] ∧ σ.ResolvesTo v (.array b)

/-- Going from arrays to their only elements, no array leads back to itself. -/
def Unwraps (σ : Store) : Prop := ∀ a, ¬ Relation.TransGen σ.Wraps a a

/-- With that fuel, the values and the elements of all arrays resolve. -/
def ResolvesWithin (σ : Store) (fuel : Nat) (vs : List Value) : Prop :=
  ∀ v, (v ∈ vs ∨ ∃ a, v ∈ σ.items a) → ∃ w, σ.resolve fuel v = some w

/-- How many steps a walk over so many arrays takes at most. -/
def walkSteps (arrays : Nat) : Nat := arrays * arrays + 3 * arrays + 4

theorem mem_items_of_only {σ : Store} {a : ArrayId} {v : Value} (h : (σ.items a).toList = [v]) :
    v ∈ σ.items a := by
  rw [← Array.mem_toList_iff, h]
  exact List.mem_singleton_self v

theorem card_arrayIds (σ : Store) : σ.arrayIds.card = σ.arrays.size := by
  have hinjective : Function.Injective ArrayId.mk := fun i j h => congrArg ArrayId.index h
  rw [arrayIds, Finset.card_image_of_injective _ hinjective, Finset.card_range]

end Store

namespace Walk

theorem room_nil {α : Type} [DecidableEq α] (U : Finset α) : room U [] = U.card := by
  rw [room, List.toFinset_nil, Finset.sdiff_empty]

/-- Lists can be compared if their elements can. -/
theorem exists_lexicographic {cmp : Value → Value → Option Ordering} :
    ∀ {xs ys : List Value}, (∀ x ∈ xs, ∀ y ∈ ys, ∃ o, cmp x y = some o) →
    ∃ o, lexicographic cmp xs ys = some o
  | [], [], _ => ⟨_, rfl⟩
  | [], _ :: _, _ => ⟨_, rfl⟩
  | _ :: _, [], _ => ⟨_, rfl⟩
  | x :: xs, y :: ys, h => by
    obtain ⟨o, ho⟩ := h x (by simp) y (by simp)
    have hrest : ∃ o, lexicographic cmp xs ys = some o :=
      exists_lexicographic fun u hu w hw => h u (by simp [hu]) w (by simp [hw])
    simp only [lexicographic, ho, Option.bind_eq_bind, Option.bind_some]
    cases o with
    | eq => exact hrest
    | lt => exact ⟨_, rfl⟩
    | gt => exact ⟨_, rfl⟩

/-! ## 2. Comparisons come to an end

An array of one element against a number goes on with the element and opens no pair.  A chain of
such arrays is the one thing that has to be finite. -/

section

variable {σ : Store} {fuel n : Nat} {pairs : OpenPairs} {a : ArrayId} {v : Value}

variable (hitems : ∀ a, ∀ v ∈ σ.items a, ∃ w, resolve (σ.slot fuel) v = some w)

include hitems

/-- The texts of the elements of an array need no more levels than there are arrays, with one
reference in front of each. -/
theorem exists_joined (hn : 2 * room σ.arrayIds [] + 1 < n) (a : ArrayId) (separator : String) :
    ∃ text, joinTexts (render σ (σ.slot fuel) n []) separator (σ.items a).toList = some text := by
  apply exists_joinTexts
  intro v hv
  obtain ⟨w, hw⟩ := hitems a v (Array.mem_toList_iff.1 hv)
  have href : v.isReference.toNat ≤ 1 := Bool.toNat_le v.isReference
  exact exists_render hitems (by omega) hw

/-- Next to a value that is no array, all depends on the only element of the array, and only if the
value is a number. -/
theorem exists_arrayOrder_of_only (hn : 2 * room σ.arrayIds [] + 1 < n)
    (honly : ∀ item, (σ.items a).toList = [item] → v.isNumeric = true →
      ∃ o, compare σ (σ.slot fuel) n pairs item v = some o) :
    ∃ o, arrayOrder σ (σ.slot fuel) n pairs a v = some o := by
  unfold arrayOrder
  split
  · exact ⟨_, rfl⟩
  · split
    · next item hitem hnumeric => exact honly item hitem hnumeric
    · obtain ⟨text, htext⟩ := exists_joined hitems hn a ","
      rw [htext]
      exact ⟨_, rfl⟩

variable (hσ : σ.Unwraps)

include hσ

/-- The arrays from which the descent has come wrap the present one, so it is none of them. -/
theorem exists_compare_numeric (hv : v.isNumeric = true) :
    ∀ {n : Nat} (passed : List ArrayId) {l x : Value},
      room σ.arrayIds passed + 2 * room σ.arrayIds [] + 2 < n →
      resolve (σ.slot fuel) l = some x →
      (∀ b, x = .array b → ∀ c ∈ passed, Relation.TransGen σ.Wraps c b) →
      ∃ o, compare σ (σ.slot fuel) n pairs l v = some o := by
  have hscalar : v.isArray = false := by
    cases v with
    | array a => cases hv
    | _ => rfl
  intro n
  induction n with
  | zero =>
    intro passed l x hroom
    exact absurd hroom (Nat.not_lt_zero _)
  | succ n ih =>
    intro passed l x hroom hx hpassed
    by_cases harray : x.isArray = true
    · obtain ⟨a, rfl⟩ := Value.isArray_iff.1 harray
      rw [compare_array_left hx (resolve_numeric hv) hscalar]
      apply exists_arrayOrder_of_only hitems (by omega)
      intro item hitem _
      have hmem := Store.mem_items_of_only hitem
      obtain ⟨w, hw⟩ := hitems a item hmem
      -- An array that was passed would lead back to itself.
      have hnew : a ∉ passed := fun h => hσ a (hpassed a rfl a h)
      have hless := room_cons_lt (Store.mem_arrayIds_of_mem hmem) hnew
      apply ih (a :: passed) (by omega) hw
      rintro b rfl c hc
      have hstep : σ.Wraps a b := ⟨item, hitem, fuel, hw⟩
      rcases List.mem_cons.1 hc with rfl | hc
      · exact .single hstep
      · exact .tail (hpassed a rfl c hc) hstep
    · rw [Bool.not_eq_true] at harray
      exact ⟨_, compare_scalars hx (resolve_numeric hv) harray hscalar⟩

/-- An array is compared with any value that is none. -/
theorem exists_arrayOrder (hn : 3 * room σ.arrayIds [] + 2 < n) (a : ArrayId) (v : Value) :
    ∃ o, arrayOrder σ (σ.slot fuel) n pairs a v = some o := by
  apply exists_arrayOrder_of_only hitems (by omega)
  intro item hitem hnumeric
  obtain ⟨w, hw⟩ := hitems a item (Store.mem_items_of_only hitem)
  apply exists_compare_numeric hitems hσ hnumeric [] (by omega) hw
  intro b _ c hc
  exact absurd hc List.not_mem_nil

/-- After the pairs of arrays, there is one descent to only elements, and one text at its end. -/
theorem exists_compare :
    ∀ {n : Nat} {pairs : OpenPairs} {l r x y : Value},
      room (σ.arrayIds ×ˢ σ.arrayIds) pairs + 3 * room σ.arrayIds [] + 3 < n →
      resolve (σ.slot fuel) l = some x → resolve (σ.slot fuel) r = some y →
      ∃ o, compare σ (σ.slot fuel) n pairs l r = some o := by
  intro n
  induction n with
  | zero =>
    intro pairs l r x y hroom
    exact absurd hroom (Nat.not_lt_zero _)
  | succ n ih =>
    intro pairs l r x y hroom hx hy
    cases hleft : x.isArray <;> cases hright : y.isArray
    case false.false => exact ⟨_, compare_scalars hx hy hleft hright⟩
    case true.false =>
      obtain ⟨a, rfl⟩ := Value.isArray_iff.1 hleft
      rw [compare_array_left hx hy hright]
      exact exists_arrayOrder hitems hσ (by omega) a y
    case false.true =>
      obtain ⟨b, rfl⟩ := Value.isArray_iff.1 hright
      obtain ⟨o, ho⟩ : ∃ o, arrayOrder σ (σ.slot fuel) n pairs b x = some o :=
        exists_arrayOrder hitems hσ (by omega) b x
      rw [compare_array_right hx hy hleft, ho]
      exact ⟨_, rfl⟩
    case true.true =>
      obtain ⟨a, rfl⟩ := Value.isArray_iff.1 hleft
      obtain ⟨b, rfl⟩ := Value.isArray_iff.1 hright
      rw [compare_arrays hx hy]
      split
      · exact ⟨_, rfl⟩
      · next hnew =>
        apply exists_lexicographic
        intro u hu w hw
        rw [Array.mem_toList_iff] at hu hw
        obtain ⟨u', hu'⟩ := hitems a u hu
        obtain ⟨w', hw'⟩ := hitems b w hw
        have hless := room_pair_lt hu hw fun hmem => hnew (.inr hmem)
        exact ih (by omega) hu' hw'

end

/-- An array that leads back to itself is never done being compared with a number. -/
theorem compare_eq_none_of_wraps {σ : Store} {fuel : Nat} {pairs : OpenPairs} (i : Int64) :
    ∀ {n : Nat} {l : Value} {a : ArrayId}, Relation.TransGen σ.Wraps a a →
      σ.ResolvesTo l (.array a) → compare σ (σ.slot fuel) n pairs l (.int i) = none := by
  intro n
  induction n with
  | zero =>
    intro l a _ _
    rfl
  | succ n ih =>
    intro l a hloop hl
    cases hx : resolve (σ.slot fuel) l with
    | none =>
      obtain ⟨order, horder⟩ := exists_compare_eq σ (σ.slot fuel) n pairs
      rw [horder, hx, Option.bind_none]
    | some x =>
      cases Store.ResolvesTo.unique hl ⟨fuel, hx⟩
      -- The only element leads to the next array of the loop, which leads back to itself just as
      -- well.
      obtain ⟨b, ⟨item, hitem, hb⟩, hback⟩ := Relation.TransGen.head'_iff.1 hloop
      have hnext : Relation.TransGen σ.Wraps b b := .tail' hback ⟨item, hitem, hb⟩
      rw [compare_array_left hx rfl rfl]
      simp only [arrayOrder, hitem]
      exact ih hnext hb

end Walk

/-! ## 3. Walks come to an end

One bound for all walks, which depends on the number of arrays and on what reading takes only. -/

namespace Store

variable {σ : Store} {l r : Value}

theorem Settled.exists_resolvesWithin (hσ : σ.Settled) (vs : List Value)
    (hvs : ∀ v ∈ vs, σ.Settles v) :
    ∃ m, σ.ResolvesWithin m vs := by
  obtain ⟨m, hm⟩ := hσ.exists_fuel
  obtain ⟨n, hn⟩ := exists_fuel_of_settles vs hvs
  refine ⟨max m n, ?_⟩
  rintro v (hv | ⟨a, hv⟩)
  · exact hn _ (Nat.le_max_right m n) v hv
  · exact hm _ (Nat.le_max_left m n) a v hv

theorem resolvesWithin_of_isSome {fuel : Nat} {vs : List Value}
    (hvs : ∀ v ∈ vs, (σ.resolve fuel v).isSome = true)
    (hrows : ∀ row ∈ σ.arrays, ∀ v ∈ row, (σ.resolve fuel v).isSome = true) :
    σ.ResolvesWithin fuel vs := by
  rintro v (hv | ⟨a, hv⟩)
  · exact Option.isSome_iff_exists.1 (hvs v hv)
  · obtain ⟨row, hrow, hv⟩ := exists_row_of_mem hv
    exact Option.isSome_iff_exists.1 (hrows row (Array.mem_of_getElem? hrow) v hv)

theorem ResolvesWithin.mono {m fuel : Nat} {vs : List Value} (h : σ.ResolvesWithin m vs)
    (hle : m ≤ fuel) :
    σ.ResolvesWithin fuel vs := by
  intro v hv
  obtain ⟨w, hw⟩ := h v hv
  exact ⟨w, resolve_mono hle hw⟩

/-- In a store whose references settle, some fuel resolves them all.  With that much, identity,
texts and copies come to an end within a number of steps that depends on nothing but how many arrays
there are.  So does a comparison, unless some array leads back to itself through arrays with one
element; and a comparison of such an array with a number never ends. -/
theorem walks_over_cycles_end (hσ : σ.Settled) (hl : σ.Settles l) (hr : σ.Settles r) :
    (∃ m, σ.ResolvesWithin m [l, r]) ∧
    (∀ m, σ.ResolvesWithin m [l, r] → ∀ fuel, m ≤ fuel → walkSteps σ.arrays.size ≤ fuel →
      (∃ same, σ.identical fuel l r = some same) ∧
      (∃ text, σ.display fuel l = some text) ∧
      (∀ a separator, ∃ text, σ.join fuel a separator = some text) ∧
      (∃ w τ, σ.copy fuel l = some (w, τ)) ∧
      (σ.Unwraps → ∃ o, σ.compare fuel l r = some o)) ∧
    ∀ a, Relation.TransGen σ.Wraps a a → ∀ fuel i, σ.compare fuel (.array a) (.int i) = none := by
  refine ⟨hσ.exists_resolvesWithin [l, r] (by simp [hl, hr]), ?_, ?_⟩
  · intro m hm fuel hle hsteps
    have hfuel := hm.mono hle
    have hitems : ∀ a, ∀ v ∈ σ.items a, ∃ w, σ.resolve fuel v = some w :=
      fun a v hv => hfuel v (.inr ⟨a, hv⟩)
    obtain ⟨x, hx⟩ := hfuel l (by simp)
    obtain ⟨y, hy⟩ := hfuel r (by simp)
    -- The bound is over all arrays and pairs of arrays, since nothing is marked at the start.
    have harrays : Walk.room σ.arrayIds [] = σ.arrays.size := by
      rw [Walk.room_nil, card_arrayIds]
    have hpairs : Walk.room (σ.arrayIds ×ˢ σ.arrayIds) [] = σ.arrays.size * σ.arrays.size := by
      rw [Walk.room_nil, Finset.card_product, card_arrayIds]
    unfold walkSteps at hsteps
    refine ⟨?_, ?_, ?_, ?_, ?_⟩
    · exact Walk.exists_identical hitems (by omega) hx hy
    · have href : l.isReference.toNat ≤ 1 := Bool.toNat_le l.isReference
      exact Walk.exists_render hitems (by omega) hx
    · exact Walk.exists_joined hitems (by omega)
    · obtain ⟨w, d, hw⟩ := Walk.exists_copy hitems (Copies.ready_empty (show _ < fuel by omega)) hx
      exact ⟨w, _, by rw [copy, hw]; rfl⟩
    · intro hunwraps
      exact Walk.exists_compare hitems hunwraps (by omega) hx hy
  · intro a hloop fuel i
    exact Walk.compare_eq_none_of_wraps i hloop ⟨0, rfl⟩

/-- Two arrays that hold each other, one of them through the variable `s`, and a third one around
the first. -/
def knot : Store where
  arrays := #[#[.array ⟨1⟩, .int 1], #[.array ⟨0⟩, .reference (.binding ⟨⟨0⟩, []⟩ "s")],
    #[.array ⟨0⟩]]
  scopes := #[⟨[("s", .array ⟨1⟩)]⟩]
  functions := #[]

/-- The third array wraps the first one, and nothing else is wrapped. -/
theorem eq_of_wraps_knot {a b : ArrayId} (h : knot.Wraps a b) : a = ⟨2⟩ ∧ b = ⟨0⟩ := by
  obtain ⟨i⟩ := a
  obtain ⟨v, hv, hb⟩ := h
  have hi : i = 2 := by
    rcases i with _ | _ | _ | i
    · cases hv
    · cases hv
    · rfl
    · simp [knot, items] at hv
  subst hi
  have hitem : v = .array ⟨0⟩ := by
    cases hv
    rfl
  subst hitem
  cases (resolvesTo_plain rfl).1 hb
  exact ⟨rfl, rfl⟩

theorem unwraps_knot : knot.Unwraps := by
  intro a hloop
  obtain ⟨b, hfirst, -⟩ := Relation.TransGen.head'_iff.1 hloop
  obtain ⟨c, -, hlast⟩ := Relation.TransGen.tail'_iff.1 hloop
  -- Only the third array wraps another one, and it is not wrapped itself.
  cases (eq_of_wraps_knot hfirst).1.symm.trans (eq_of_wraps_knot hlast).2

/-- The three arrays make 22 steps enough, whatever is done with them. -/
theorem knot_is_walked :
    knot.Settled ∧ knot.Unwraps ∧
    (∃ same, knot.identical 22 (.array ⟨0⟩) (.array ⟨1⟩) = some same) ∧
    (∃ text, knot.display 22 (.array ⟨0⟩) = some text) ∧
    (∃ w τ, knot.copy 22 (.array ⟨0⟩) = some (w, τ)) ∧
    ∃ o, knot.compare 22 (.array ⟨0⟩) (.array ⟨1⟩) = some o := by
  have hsettled : knot.Settled := settled_of_resolves 9 (by decide +kernel)
  obtain ⟨-, hwalks, -⟩ := walks_over_cycles_end (l := .array ⟨0⟩) (r := .array ⟨1⟩) hsettled
    (settles_of_plain rfl) (settles_of_plain rfl)
  have hresolves : knot.ResolvesWithin 9 [.array ⟨0⟩, .array ⟨1⟩] :=
    resolvesWithin_of_isSome (by decide +kernel) (by decide +kernel)
  obtain ⟨hsame, htext, -, hcopy, horder⟩ := hwalks 9 hresolves 22 (by decide) (by decide)
  exact ⟨hsettled, unwraps_knot, hsame, htext, hcopy, horder unwraps_knot⟩

end Store
end Scriptlet
