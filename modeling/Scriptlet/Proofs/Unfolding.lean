import Scriptlet.Proofs.Copying
import Scriptlet.Proofs.Settled
import Scriptlet.Store.Operate

/-!
# Identity is equality of unfoldings

Following the indices of a path through arrays, and references wherever they are stored, unfolds a
value to a tree that may be infinite.  `identical` compares two such trees on the finite store: a
pair of arrays that is being compared counts as equal, and so does an array with itself.

That this accepts nothing wrong is shown by the length of paths.  If the pairs that are open agree
on all paths up to a length, and the walk accepts, then the two values agree up to that length; for
the next length the walk's own pair may be used, since it agrees up to the length before
(`agrees_of_identical`).  That it rejects nothing is an induction on the walk
(`eq_true_of_sameUnfolding`).

Identity of values is in §4.3 of the specification; that it has to end on arrays that contain
themselves follows from §4.7, by which arrays are shared.
-/

namespace Scriptlet
namespace Store

variable {σ : Store}

/-! ## 1. Unfoldings

Paths are compared up to a length first, in each direction by itself. -/

/-- What a path of indices leads to from a value, with references followed at every step. -/
inductive Unfolds (σ : Store) : Value → List Nat → Value → Prop
  | here {v w : Value} : σ.ResolvesTo v w → Unfolds σ v [] w
  | item {v x w : Value} {a : ArrayId} {i : Nat} {path : List Nat} : σ.ResolvesTo v (.array a) →
      (σ.items a)[i]? = some x → Unfolds σ x path w → Unfolds σ v (i :: path) w

/-- Values of the same type with the same scalar, the same function or the same length.  Floats are
the same scalar if they are the same number, so the two zeros are. -/
def Alike (σ : Store) : Value → Value → Prop
  | .invalid, .invalid => True
  | .bool a, .bool b => a = b
  | .int m, .int n => m = n
  | .float x, .float y => Binary64.orderKey x = Binary64.orderKey y
  | .str s, .str t => s = t
  | .array a, .array b => (σ.items a).size = (σ.items b).size
  | .function f, .function g => f = g
  | _, _ => False

/-- On paths up to a length, what the first value unfolds to is like what the second one does. -/
def Matches (σ : Store) (k : Nat) (v w : Value) : Prop :=
  ∀ path : List Nat, path.length ≤ k → ∀ x, σ.Unfolds v path x →
    ∃ y, σ.Unfolds w path y ∧ σ.Alike x y

/-- On every path, two values unfold to values that are alike, or neither of them unfolds to
anything. -/
def SameUnfolding (σ : Store) (v w : Value) : Prop :=
  ∀ path, (∀ x, σ.Unfolds v path x → ∃ y, σ.Unfolds w path y ∧ σ.Alike x y) ∧
    ∀ y, σ.Unfolds w path y → ∃ x, σ.Unfolds v path x ∧ σ.Alike x y

def NaNFree (σ : Store) (v : Value) : Prop := ∀ path x, σ.Unfolds v path x → x.isNaN = false

theorem Alike.symm {x y : Value} (h : σ.Alike x y) : σ.Alike y x := by
  cases x <;> cases y <;> simp only [Alike] at h ⊢ <;> exact h.symm

theorem Alike.trans {x y z : Value} (hxy : σ.Alike x y) (hyz : σ.Alike y z) : σ.Alike x z := by
  cases x <;> cases y <;> simp only [Alike] at hxy <;> cases z <;> simp only [Alike] at hyz ⊢ <;>
    exact hxy.trans hyz

theorem alike_self {x : Value} (hx : x.isReference = false) : σ.Alike x x := by
  cases x with
  | reference r => cases hx
  | invalid => trivial
  | _ => rfl

theorem Alike.array_left {a : ArrayId} {y : Value} (h : σ.Alike (.array a) y) :
    ∃ b, y = .array b := by
  cases y with
  | array b => exact ⟨b, rfl⟩
  | _ => cases h

theorem ResolvesTo.isReference {v w : Value} (h : σ.ResolvesTo v w) : w.isReference = false := by
  obtain ⟨fuel, h⟩ := h
  exact Walk.follow_isReference hopLimit h

theorem Unfolds.isReference {v w : Value} {path : List Nat} (h : σ.Unfolds v path w) :
    w.isReference = false := by
  induction h with
  | here hw => exact hw.isReference
  | item _ _ _ ih => exact ih

theorem Unfolds.of_item {v x w : Value} {a : ArrayId} {i : Nat} {path : List Nat}
    (hv : σ.ResolvesTo v (.array a)) (hx : (σ.items a)[i]? = some x)
    (h : σ.Unfolds v (i :: path) w) : σ.Unfolds x path w := by
  cases h with
  | item hv' hx' hw =>
    cases hv.unique hv'
    cases hx.symm.trans hx'
    exact hw

/-- Values that resolve to the same value unfold alike. -/
theorem Unfolds.congr {v w u x : Value} {path : List Nat} (hv : σ.ResolvesTo v u)
    (hw : σ.ResolvesTo w u) (h : σ.Unfolds v path x) : σ.Unfolds w path x := by
  cases h with
  | here hx =>
    cases hv.unique hx
    exact .here hw
  | item ha hi hx =>
    cases hv.unique ha
    exact .item hw hi hx

theorem Matches.mono {k m : Nat} {v w : Value} (h : σ.Matches m v w) (hkm : k ≤ m) :
    σ.Matches k v w :=
  fun path hpath => h path (Nat.le_trans hpath hkm)

theorem matches_of_same {v w u : Value} (hv : σ.ResolvesTo v u) (hw : σ.ResolvesTo w u) (k : Nat) :
    σ.Matches k v w :=
  fun _ _ x hx => ⟨x, hx.congr hv hw, alike_self hx.isReference⟩

/-- Values that are no arrays unfold only to themselves. -/
theorem matches_of_alike {v w x y : Value} (hv : σ.ResolvesTo v x) (hw : σ.ResolvesTo w y)
    (hxy : σ.Alike x y) (hx : ∀ a, x ≠ .array a) (k : Nat) : σ.Matches k v w := by
  intro path _ z hz
  cases hz with
  | here hz =>
    cases hv.unique hz
    exact ⟨y, .here hw, hxy⟩
  | item ha _ _ => exact absurd (hv.unique ha) (hx _)

theorem matches_zero_of_arrays {v w : Value} {a b : ArrayId} (hv : σ.ResolvesTo v (.array a))
    (hw : σ.ResolvesTo w (.array b)) (hsize : (σ.items a).size = (σ.items b).size) :
    σ.Matches 0 v w := by
  intro path hpath z hz
  cases hz with
  | here hz =>
    cases hv.unique hz
    exact ⟨_, .here hw, hsize⟩
  | item _ _ _ => cases hpath

/-- Arrays of the same length match as far as one step more than their elements. -/
theorem matches_succ_of_arrays {k : Nat} {v w : Value} {a b : ArrayId}
    (hv : σ.ResolvesTo v (.array a)) (hw : σ.ResolvesTo w (.array b))
    (hsize : (σ.items a).size = (σ.items b).size)
    (hitems : ∀ (i : Nat) x y, (σ.items a)[i]? = some x → (σ.items b)[i]? = some y →
      σ.Matches k x y) :
    σ.Matches (k + 1) v w := by
  intro path hpath z hz
  cases hz with
  | here hz =>
    cases hv.unique hz
    exact ⟨_, .here hw, hsize⟩
  | @item _ x _ _ i path ha hx hz =>
    cases hv.unique ha
    have hi : i < (σ.items b).size := hsize ▸ (Array.getElem?_eq_some_iff.1 hx).1
    have hy : (σ.items b)[i]? = some (σ.items b)[i] := Array.getElem?_eq_getElem hi
    obtain ⟨z', hz', halike⟩ := hitems i x _ hx hy path (Nat.le_of_succ_le_succ hpath) z hz
    exact ⟨z', .item hw hy hz', halike⟩

end Store

/-! ## 2. One step of the walk

Reading both values, then either comparing them or their elements in order. -/

namespace Walk

variable {σ : Store} {slot : Reader} {n : Nat} {pairs : OpenPairs} {l r : Value}

theorem identical_arrays {a b : ArrayId} (hl : resolve slot l = some (.array a))
    (hr : resolve slot r = some (.array b)) :
    identical σ slot (n + 1) pairs l r =
      if a = b ∨ (a, b) ∈ pairs then some true
      else if (σ.items a).size ≠ (σ.items b).size then some false
      else allPairs (identical σ slot n ((a, b) :: pairs))
        (σ.items a).toList (σ.items b).toList := by
  simp only [identical, hl, hr, Option.bind_eq_bind, Option.bind_some]
  rfl

theorem equals_iff (x y : Float) : Binary64.equals x y = true ↔
    Binary64.orderKey x = Binary64.orderKey y ∧ Binary64.isNaN x = false ∧
      Binary64.isNaN y = false := by
  simp only [Binary64.equals, Bool.and_eq_true, Bool.not_eq_true', beq_iff_eq]
  constructor
  · rintro ⟨⟨hx, hy⟩, hkey⟩
    exact ⟨hkey, hx, hy⟩
  · rintro ⟨hkey, hx, hy⟩
    exact ⟨⟨hx, hy⟩, hkey⟩

/-- Values of which one is no array are compared by themselves. -/
theorem identical_plain (n : Nat) (pairs : OpenPairs) {u w : Value} (hl : resolve slot l = some u)
    (hr : resolve slot r = some w) (hplain : ∀ a b, u = .array a → w ≠ .array b) :
    ∃ t, identical σ slot (n + 1) pairs l r = some t ∧
      (t = true ↔ σ.Alike u w ∧ u.isNaN = false ∧ w.isNaN = false) := by
  simp only [identical, hl, hr, Option.bind_eq_bind, Option.bind_some]
  cases u <;> cases w <;> simp_all [Store.Alike, Value.isNaN, equals_iff]

theorem resolved_of_identical {t : Bool} (h : identical σ slot n pairs l r = some t) :
    ∃ m u w, n = m + 1 ∧ resolve slot l = some u ∧ resolve slot r = some w := by
  cases n with
  | zero => cases h
  | succ m =>
    simp only [identical, Option.bind_eq_bind, Option.bind_eq_some_iff] at h
    obtain ⟨u, hu, w, hw, -⟩ := h
    exact ⟨m, u, w, rfl, hu, hw⟩

theorem allPairs_eq_true {p : Value → Value → Option Bool} :
    ∀ {xs ys : List Value}, allPairs p xs ys = some true →
      ∀ (i : Nat) x y, xs[i]? = some x → ys[i]? = some y → p x y = some true
  | x :: xs, y :: ys, h, i, u, w, hu, hw => by
    simp only [allPairs, Option.bind_eq_bind, Option.bind_eq_some_iff] at h
    obtain ⟨t, ht, h⟩ := h
    cases t with
    | false => cases h
    | true =>
      cases i with
      | zero =>
        cases hu
        cases hw
        exact ht
      | succ i => exact allPairs_eq_true h i u w hu hw
  | [], _, _, i, u, w, hu, _ => by simp at hu
  | _ :: _, [], _, i, u, w, _, hw => by simp at hw

theorem allPairs_eq_false {p : Value → Value → Option Bool} :
    ∀ {xs ys : List Value}, allPairs p xs ys = some false →
      ∃ (i : Nat) (x y : Value), xs[i]? = some x ∧ ys[i]? = some y ∧ p x y = some false
  | x :: xs, y :: ys, h => by
    simp only [allPairs, Option.bind_eq_bind, Option.bind_eq_some_iff] at h
    obtain ⟨t, ht, h⟩ := h
    cases t with
    | false => exact ⟨0, x, y, rfl, rfl, ht⟩
    | true =>
      obtain ⟨i, u, w, hu, hw, hp⟩ := allPairs_eq_false h
      exact ⟨i + 1, u, w, hu, hw, hp⟩
  | [], _, h => by simp [allPairs] at h
  | _ :: _, [], h => by simp [allPairs] at h

theorem exists_allPairs {p : Value → Value → Option Bool} :
    ∀ {xs ys : List Value}, (∀ x ∈ xs, ∀ y ∈ ys, ∃ t, p x y = some t) →
      ∃ t, allPairs p xs ys = some t
  | x :: xs, y :: ys, h => by
    obtain ⟨t, ht⟩ := h x (by simp) y (by simp)
    simp only [allPairs, ht, Option.bind_eq_bind, Option.bind_some]
    cases t with
    | false => exact ⟨false, rfl⟩
    | true => exact exists_allPairs fun u hu w hw => h u (by simp [hu]) w (by simp [hw])
  -- Lists of different lengths are compared as far as the shorter one.
  | [], _, _ => ⟨true, by simp [allPairs]⟩
  | _ :: _, [], _ => ⟨true, by simp [allPairs]⟩

/-- Why the walk accepts two values: they are alike and no arrays, or they are arrays that are the
same, open, or of the same length with elements that the walk accepts. -/
theorem identical_eq_true (h : identical σ slot n pairs l r = some true) :
    ∃ x y, resolve slot l = some x ∧ resolve slot r = some y ∧
      ((σ.Alike x y ∧ ∀ a, x ≠ .array a) ∨ ∃ a b, x = .array a ∧ y = .array b ∧
        ((a = b ∨ (a, b) ∈ pairs) ∨ (σ.items a).size = (σ.items b).size ∧
          ∃ m, ∀ (i : Nat) u w, (σ.items a)[i]? = some u → (σ.items b)[i]? = some w →
            identical σ slot m ((a, b) :: pairs) u w = some true)) := by
  obtain ⟨m, x, y, rfl, hx, hy⟩ := resolved_of_identical h
  refine ⟨x, y, hx, hy, ?_⟩
  by_cases hboth : ∃ a b, x = .array a ∧ y = .array b
  · obtain ⟨a, b, rfl, rfl⟩ := hboth
    refine .inr ⟨a, b, rfl, rfl, ?_⟩
    rw [identical_arrays hx hy] at h
    split at h
    · next hknown => exact .inl hknown
    · split at h
      · cases h
      · next hsize =>
        refine .inr ⟨Decidable.not_not.1 hsize, m, fun i u w hu hw => ?_⟩
        exact allPairs_eq_true h i u w (by simpa using hu) (by simpa using hw)
  · obtain ⟨t, ht, hiff⟩ := identical_plain m pairs hx hy fun a b ha hb => hboth ⟨a, b, ha, hb⟩
    cases h.symm.trans ht
    have halike := (hiff.1 rfl).1
    refine .inl ⟨halike, ?_⟩
    rintro a rfl
    obtain ⟨b, rfl⟩ := halike.array_left
    exact hboth ⟨a, b, rfl, rfl⟩

end Walk

/-! ## 3. The walk decides equality of unfoldings

Both directions are about one run of the walk with pairs open. -/

namespace Store

variable {σ : Store} {fuel : Nat}

def Agrees (σ : Store) (k : Nat) (v w : Value) : Prop := σ.Matches k v w ∧ σ.Matches k w v

theorem Agrees.mono {k m : Nat} {v w : Value} (h : σ.Agrees m v w) (hkm : k ≤ m) : σ.Agrees k v w :=
  ⟨h.1.mono hkm, h.2.mono hkm⟩

theorem resolvesTo_array (a : ArrayId) : σ.ResolvesTo (.array a) (.array a) := ⟨0, rfl⟩

theorem Agrees.congr {k : Nat} {v v' w w' x y : Value} (h : σ.Agrees k v w) (hv : σ.ResolvesTo v x)
    (hv' : σ.ResolvesTo v' x) (hw : σ.ResolvesTo w y) (hw' : σ.ResolvesTo w' y) :
    σ.Agrees k v' w' := by
  constructor
  · intro path hpath z hz
    obtain ⟨z', hz', halike⟩ := h.1 path hpath z (hz.congr hv' hv)
    exact ⟨z', hz'.congr hw hw', halike⟩
  · intro path hpath z hz
    obtain ⟨z', hz', halike⟩ := h.2 path hpath z (hz.congr hw' hw)
    exact ⟨z', hz'.congr hv hv', halike⟩

theorem agrees_of_alike {v w x y : Value} (hv : σ.ResolvesTo v x) (hw : σ.ResolvesTo w y)
    (hxy : σ.Alike x y) (hx : ∀ a, x ≠ .array a) (k : Nat) : σ.Agrees k v w := by
  refine ⟨matches_of_alike hv hw hxy hx k, matches_of_alike hw hv hxy.symm ?_ k⟩
  rintro b rfl
  obtain ⟨a, ha⟩ := hxy.symm.array_left
  exact hx a ha

/-- An array agrees with itself, and the arrays of an open pair agree by assumption. -/
theorem agrees_of_known {k : Nat} {pairs : Walk.OpenPairs} {v w : Value} {a b : ArrayId}
    (hv : σ.ResolvesTo v (.array a)) (hw : σ.ResolvesTo w (.array b))
    (hpairs : ∀ p ∈ pairs, σ.Agrees k (.array p.1) (.array p.2)) (hknown : a = b ∨ (a, b) ∈ pairs) :
    σ.Agrees k v w := by
  rcases hknown with rfl | hopen
  · exact ⟨matches_of_same hv hw k, matches_of_same hw hv k⟩
  · exact (hpairs (a, b) hopen).congr (resolvesTo_array a) hv (resolvesTo_array b) hw

/-- Where the walk accepts two values, they agree as far as the open pairs do. -/
theorem agrees_of_identical (k : Nat) :
    ∀ {n : Nat} {pairs : Walk.OpenPairs} {v w : Value},
      Walk.identical σ (σ.slot fuel) n pairs v w = some true →
      (∀ p ∈ pairs, σ.Agrees k (.array p.1) (.array p.2)) → σ.Agrees k v w := by
  induction k with
  | zero =>
    intro n pairs v w h hpairs
    obtain ⟨x, y, hx, hy, hwhy⟩ := Walk.identical_eq_true h
    have hv : σ.ResolvesTo v x := ⟨fuel, hx⟩
    have hw : σ.ResolvesTo w y := ⟨fuel, hy⟩
    rcases hwhy with ⟨halike, hnot⟩ | ⟨a, b, rfl, rfl, hknown | ⟨hsize, -⟩⟩
    · exact agrees_of_alike hv hw halike hnot 0
    · exact agrees_of_known hv hw hpairs hknown
    · exact ⟨matches_zero_of_arrays hv hw hsize, matches_zero_of_arrays hw hv hsize.symm⟩
  | succ k ih =>
    intro n pairs v w h hpairs
    obtain ⟨x, y, hx, hy, hwhy⟩ := Walk.identical_eq_true h
    have hv : σ.ResolvesTo v x := ⟨fuel, hx⟩
    have hw : σ.ResolvesTo w y := ⟨fuel, hy⟩
    rcases hwhy with ⟨halike, hnot⟩ | ⟨a, b, rfl, rfl, hknown | ⟨hsize, m, hitems⟩⟩
    · exact agrees_of_alike hv hw halike hnot (k + 1)
    · exact agrees_of_known hv hw hpairs hknown
    · -- One step less far, the pair itself agrees, so it may be among the open ones.
      have hshorter : ∀ p ∈ pairs, σ.Agrees k (.array p.1) (.array p.2) :=
        fun p hp => (hpairs p hp).mono k.le_succ
      have hself : σ.Agrees k (.array a) (.array b) :=
        (ih h hshorter).congr hv (resolvesTo_array a) hw (resolvesTo_array b)
      have hopen : ∀ p ∈ (a, b) :: pairs, σ.Agrees k (.array p.1) (.array p.2) := by
        intro p hp
        rcases List.mem_cons.1 hp with rfl | hp
        · exact hself
        · exact hshorter p hp
      constructor
      · exact matches_succ_of_arrays hv hw hsize fun i u u' hu hu' =>
          (ih (hitems i u u' hu hu') hopen).1
      · exact matches_succ_of_arrays hw hv hsize.symm fun i u' u hu' hu =>
          (ih (hitems i u u' hu hu') hopen).2

theorem sameUnfolding_of_agrees {v w : Value} (h : ∀ k, σ.Agrees k v w) : σ.SameUnfolding v w := by
  intro path
  constructor
  · intro x hx
    exact (h path.length).1 path (Nat.le_refl _) x hx
  · intro y hy
    obtain ⟨x, hx, halike⟩ := (h path.length).2 path (Nat.le_refl _) y hy
    exact ⟨x, hx, halike.symm⟩

theorem sameUnfolding_of_identical {v w : Value} (h : σ.identical fuel v w = some true) :
    σ.SameUnfolding v w :=
  sameUnfolding_of_agrees fun k => agrees_of_identical k h fun _ hp => nomatch hp

theorem SameUnfolding.symm {v w : Value} (h : σ.SameUnfolding v w) : σ.SameUnfolding w v := by
  intro path
  constructor
  · intro y hy
    obtain ⟨x, hx, halike⟩ := (h path).2 y hy
    exact ⟨x, hx, halike.symm⟩
  · intro x hx
    obtain ⟨y, hy, halike⟩ := (h path).1 x hx
    exact ⟨y, hy, halike.symm⟩

theorem SameUnfolding.trans {u v w : Value} (huv : σ.SameUnfolding u v)
    (hvw : σ.SameUnfolding v w) : σ.SameUnfolding u w := by
  intro path
  constructor
  · intro x hx
    obtain ⟨y, hy, hxy⟩ := (huv path).1 x hx
    obtain ⟨z, hz, hyz⟩ := (hvw path).1 y hy
    exact ⟨z, hz, hxy.trans hyz⟩
  · intro z hz
    obtain ⟨y, hy, hyz⟩ := (hvw path).2 z hz
    obtain ⟨x, hx, hxy⟩ := (huv path).2 y hy
    exact ⟨x, hx, hxy.trans hyz⟩

theorem SameUnfolding.refl (v : Value) : σ.SameUnfolding v v :=
  fun _ => ⟨fun x hx => ⟨x, hx, alike_self hx.isReference⟩,
    fun x hx => ⟨x, hx, alike_self hx.isReference⟩⟩

theorem SameUnfolding.alike {v w x y : Value} (h : σ.SameUnfolding v w) (hx : σ.ResolvesTo v x)
    (hy : σ.ResolvesTo w y) : σ.Alike x y := by
  obtain ⟨y', hy', halike⟩ := (h []).1 x (.here hx)
  cases hy' with
  | here hy' =>
    cases hy.unique hy'
    exact halike

theorem SameUnfolding.item {v w x y : Value} {a b : ArrayId} {i : Nat} (h : σ.SameUnfolding v w)
    (hv : σ.ResolvesTo v (.array a)) (hw : σ.ResolvesTo w (.array b))
    (hx : (σ.items a)[i]? = some x) (hy : (σ.items b)[i]? = some y) : σ.SameUnfolding x y := by
  intro path
  constructor
  -- The paths of an element are those of the array that start with its index.
  · intro z hz
    obtain ⟨z', hz', halike⟩ := (h (i :: path)).1 z (.item hv hx hz)
    exact ⟨z', hz'.of_item hw hy, halike⟩
  · intro z hz
    obtain ⟨z', hz', halike⟩ := (h (i :: path)).2 z (.item hw hy hz)
    exact ⟨z', hz'.of_item hv hx, halike⟩

theorem NaNFree.item {v x : Value} {a : ArrayId} {i : Nat} (h : σ.NaNFree v)
    (hv : σ.ResolvesTo v (.array a)) (hx : (σ.items a)[i]? = some x) : σ.NaNFree x :=
  fun path z hz => h (i :: path) z (.item hv hx hz)

/-- The walk rejects no values that unfold alike. -/
theorem eq_true_of_sameUnfolding {n : Nat} : ∀ {pairs : Walk.OpenPairs} {v w : Value} {t : Bool},
    Walk.identical σ (σ.slot fuel) n pairs v w = some t → σ.SameUnfolding v w →
    σ.NaNFree v → σ.NaNFree w → t = true := by
  induction n with
  | zero =>
    intro pairs v w t h
    cases h
  | succ n ih =>
    intro pairs v w t h hsame hnv hnw
    obtain ⟨m, x, y, hm, hx, hy⟩ := Walk.resolved_of_identical h
    cases hm
    have hv : σ.ResolvesTo v x := ⟨fuel, hx⟩
    have hw : σ.ResolvesTo w y := ⟨fuel, hy⟩
    have halike := hsame.alike hv hw
    by_cases hboth : ∃ a b, x = .array a ∧ y = .array b
    · obtain ⟨a, b, rfl, rfl⟩ := hboth
      rw [Walk.identical_arrays hx hy] at h
      split at h
      · exact (Option.some.inj h).symm
      · split at h
        · next hsize => exact absurd halike hsize
        · cases t with
          | true => rfl
          | false =>
            -- Two elements at the same place were rejected, though they unfold alike as their
            -- arrays do.
            obtain ⟨i, u, u', hu, hu', hdiffer⟩ := Walk.allPairs_eq_false h
            rw [Array.getElem?_toList] at hu hu'
            exact ih hdiffer (hsame.item hv hw hu hu') (hnv.item hv hu) (hnw.item hw hu')
    · obtain ⟨t', ht', hiff⟩ := Walk.identical_plain n pairs hx hy fun a b ha hb =>
        hboth ⟨a, b, ha, hb⟩
      cases h.symm.trans ht'
      exact hiff.2 ⟨halike, hnv [] x (.here hv), hnw [] y (.here hw)⟩

end Store

/-! ## 4. The walk ends

Each pair of arrays is opened at most once, and there are finitely many. -/

/-- Opening a pair of arrays leaves fewer pairs to open; both of them exist, since they have
elements. -/
theorem Walk.room_pair_lt {σ : Store} {pairs : OpenPairs} {a b : ArrayId} {u w : Value}
    (hu : u ∈ σ.items a) (hw : w ∈ σ.items b) (hnew : (a, b) ∉ pairs) :
    room (σ.arrayIds ×ˢ σ.arrayIds) ((a, b) :: pairs) < room (σ.arrayIds ×ˢ σ.arrayIds) pairs :=
  room_cons_lt (Finset.mem_product.2 ⟨Store.mem_arrayIds_of_mem hu, Store.mem_arrayIds_of_mem hw⟩)
    hnew

theorem Walk.exists_identical {σ : Store} {slot : Reader}
    (hitems : ∀ a, ∀ v ∈ σ.items a, ∃ w, resolve slot v = some w) :
    ∀ {n : Nat} {pairs : OpenPairs} {l r x y : Value}, room (σ.arrayIds ×ˢ σ.arrayIds) pairs < n →
      resolve slot l = some x → resolve slot r = some y →
      ∃ t, identical σ slot n pairs l r = some t := by
  intro n
  induction n with
  | zero =>
    intro pairs l r x y hroom
    exact absurd hroom (Nat.not_lt_zero _)
  | succ n ih =>
    intro pairs l r x y hroom hx hy
    by_cases hboth : ∃ a b, x = .array a ∧ y = .array b
    · obtain ⟨a, b, rfl, rfl⟩ := hboth
      rw [identical_arrays hx hy]
      split
      · exact ⟨true, rfl⟩
      · next hnew =>
        split
        · exact ⟨false, rfl⟩
        · refine exists_allPairs fun u hu w hw => ?_
          rw [Array.mem_toList_iff] at hu hw
          obtain ⟨u', hu'⟩ := hitems a u hu
          obtain ⟨w', hw'⟩ := hitems b w hw
          have hless := room_pair_lt hu hw fun hmem => hnew (.inr hmem)
          exact ih (by omega) hu' hw'
    · obtain ⟨t, ht, -⟩ := identical_plain n pairs hx hy fun a b ha hb => hboth ⟨a, b, ha, hb⟩
      exact ⟨t, ht⟩

namespace Store

variable {σ : Store}

theorem Settled.exists_identical (hσ : σ.Settled) {v w : Value} (hv : σ.Settles v)
    (hw : σ.Settles w) :
    ∃ bound, ∀ fuel, bound ≤ fuel → ∃ t, σ.identical fuel v w = some t := by
  obtain ⟨items, hitems⟩ := hσ.exists_fuel
  obtain ⟨x, m, hx⟩ := hv
  obtain ⟨y, n, hy⟩ := hw
  let pairs := Walk.room (σ.arrayIds ×ˢ σ.arrayIds) []
  refine ⟨max (max items (pairs + 1)) (max m n), fun fuel hfuel => ?_⟩
  have hlarge : items ≤ fuel ∧ pairs < fuel ∧ m ≤ fuel ∧ n ≤ fuel := by omega
  obtain ⟨hbound, hpairs, hm, hn⟩ := hlarge
  exact Walk.exists_identical (hitems fuel hbound) hpairs (resolve_mono hm hx) (resolve_mono hn hy)

/-! ## 5. Identity

Reflexive, symmetric and transitive, as equality of unfoldings is. -/

theorem eq_true_iff_sameUnfolding {fuel : Nat} {v w : Value} {t : Bool} (hv : σ.NaNFree v)
    (hw : σ.NaNFree w) (h : σ.identical fuel v w = some t) : t = true ↔ σ.SameUnfolding v w := by
  constructor
  · rintro rfl
    exact sameUnfolding_of_identical h
  · intro hsame
    exact eq_true_of_sameUnfolding h hsame hv hw

theorem binary_identical_iff {fuel : Nat} {v w : Value} :
    σ.binary fuel (.relation .identical) v w = some (.bool true) ↔
      σ.identical fuel v w = some true := by
  simp [binary, relation]

/-- Values from which references settle and no NaN is reached are identical exactly if they unfold
alike. -/
theorem Settled.identical_iff (hσ : σ.Settled) {v w : Value} (hv : σ.Settles v ∧ σ.NaNFree v)
    (hw : σ.Settles w ∧ σ.NaNFree w) :
    (∃ fuel, σ.binary fuel (.relation .identical) v w = some (.bool true)) ↔
      σ.SameUnfolding v w := by
  constructor
  · rintro ⟨fuel, h⟩
    exact sameUnfolding_of_identical (binary_identical_iff.1 h)
  · intro hsame
    obtain ⟨bound, hbound⟩ := hσ.exists_identical hv.1 hw.1
    obtain ⟨t, ht⟩ := hbound bound (Nat.le_refl _)
    rw [(eq_true_iff_sameUnfolding hv.2 hw.2 ht).2 hsame] at ht
    exact ⟨bound, binary_identical_iff.2 ht⟩

/-- In a settled store, the walk ends on values from which no NaN is reached, and accepts exactly
those that have the same unfolding; so the operator is an equivalence on them. -/
theorem identical_eq_sameUnfolding (σ : Store) (hσ : σ.Settled) :
    (∀ v w, σ.Settles v → σ.Settles w → σ.NaNFree v → σ.NaNFree w →
      (∃ bound, ∀ fuel, bound ≤ fuel → ∃ t, σ.identical fuel v w = some t) ∧
      ∀ fuel t, σ.identical fuel v w = some t → (t = true ↔ σ.SameUnfolding v w)) ∧
    Equivalence fun v w : { v // σ.Settles v ∧ σ.NaNFree v } =>
      ∃ fuel, σ.binary fuel (.relation .identical) v w = some (.bool true) := by
  constructor
  · intro v w hv hw hnv hnw
    exact ⟨hσ.exists_identical hv hw, fun fuel t h => eq_true_iff_sameUnfolding hnv hnw h⟩
  · constructor
    · rintro ⟨v, hv⟩
      exact (hσ.identical_iff hv hv).2 (.refl v)
    · rintro ⟨v, hv⟩ ⟨w, hw⟩ h
      exact (hσ.identical_iff hw hv).2 ((hσ.identical_iff hv hw).1 h).symm
    · rintro ⟨u, hu⟩ ⟨v, hv⟩ ⟨w, hw⟩ huv hvw
      exact (hσ.identical_iff hu hw).2
        (((hσ.identical_iff hu hv).1 huv).trans ((hσ.identical_iff hv hw).1 hvw))

/-! ## 6. A criterion that can be run -/

def readsNumber (σ : Store) (fuel : Nat) (v : Value) : Bool :=
  (σ.resolve fuel v).any fun w => !w.isNaN

theorem readsNumber_iff {fuel : Nat} {v : Value} :
    σ.readsNumber fuel v = true ↔ ∃ w, σ.resolve fuel v = some w ∧ w.isNaN = false := by
  cases h : σ.resolve fuel v <;> simp [readsNumber, h]

def allNumbers (σ : Store) (fuel : Nat) : Bool :=
  σ.arrays.all fun row => row.all (σ.readsNumber fuel)

theorem readsNumber_of_mem {fuel : Nat} (h : σ.allNumbers fuel = true) {a : ArrayId} {v : Value}
    (hv : v ∈ σ.items a) : σ.readsNumber fuel v = true := by
  obtain ⟨row, hrow, hv⟩ := exists_row_of_mem hv
  exact Array.all_eq_true_iff_forall_mem.1
    (Array.all_eq_true_iff_forall_mem.1 h row (Array.mem_of_getElem? hrow)) v hv

theorem settled_of_allNumbers {fuel : Nat} (h : σ.allNumbers fuel = true) : σ.Settled := by
  intro a v hv
  obtain ⟨w, hw, -⟩ := readsNumber_iff.1 (readsNumber_of_mem h hv)
  exact ⟨w, fuel, hw⟩

theorem nanFree_of_allNumbers {fuel : Nat} (h : σ.allNumbers fuel = true) {v : Value}
    (hv : σ.readsNumber fuel v = true) : σ.NaNFree v := by
  intro path x hx
  induction hx with
  | here hw =>
    obtain ⟨u, hu, hnan⟩ := readsNumber_iff.1 hv
    cases hw.unique ⟨fuel, hu⟩
    exact hnan
  | item _ hi _ ih => exact ih (readsNumber_of_mem h (Array.mem_of_getElem? hi))

/-- An array that holds itself, and two arrays that hold each other, the second one through the
variable `x`. -/
def looping : Store where
  arrays := #[#[.int 1, .array ⟨0⟩], #[.int 1, .reference (.binding ⟨⟨0⟩, []⟩ "x")],
    #[.int 1, .array ⟨1⟩]]
  scopes := #[⟨[("x", .array ⟨2⟩)]⟩]
  functions := #[]

/-- Cycles of different lengths have the same unfolding. -/
theorem looping_identical :
    looping.Settled ∧ looping.Settles (.array ⟨0⟩) ∧ looping.Settles (.array ⟨1⟩) ∧
    looping.NaNFree (.array ⟨0⟩) ∧ looping.NaNFree (.array ⟨1⟩) ∧
    looping.identical 9 (.array ⟨0⟩) (.array ⟨1⟩) = some true ∧
    looping.SameUnfolding (.array ⟨0⟩) (.array ⟨1⟩) := by
  have hall : looping.allNumbers 9 = true := by decide +kernel
  have hsettles : ∀ a, looping.Settles (.array a) := fun a => ⟨.array a, resolvesTo_array a⟩
  have hnan : ∀ a, looping.NaNFree (.array a) := fun a => nanFree_of_allNumbers hall rfl
  have hidentical : looping.identical 9 (.array ⟨0⟩) (.array ⟨1⟩) = some true := by decide +kernel
  obtain ⟨hdecides, -⟩ := identical_eq_sameUnfolding looping (settled_of_allNumbers hall)
  have hiff :=
    (hdecides _ _ (hsettles ⟨0⟩) (hsettles ⟨1⟩) (hnan ⟨0⟩) (hnan ⟨1⟩)).2 9 true hidentical
  exact ⟨settled_of_allNumbers hall, hsettles _, hsettles _, hnan _, hnan _, hidentical, hiff.1 rfl⟩

end Store
end Scriptlet
