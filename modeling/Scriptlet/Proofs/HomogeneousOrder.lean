import Mathlib.Data.Nat.Find
import Scriptlet.Proofs.EqualInOrder

/-!
# The order of data of one kind

The order of all values is not transitive: `9` comes before the text `10`, which comes before the
text `9`, which is equal to `9`.  It is on data that is made of one kind of scalars, nested in
arrays to the same depth everywhere.  Such data has a key, the nested list of its scalars with
`none` for what is unset, and comparing two of them is comparing their keys (`Walk.compare_eq_key`).
Keys are in a lawful order, and so are the values.

An array of such data does not hold itself, so it is never met again while it is open: the least
depth of what is being compared is smaller than that of any array that is open (`Walk.Beneath`).

The specification calls the order total (§4.3, §8).  This is what is left of that for its
transitivity.
-/

namespace Scriptlet

/-! ## 1. Kinds of scalars and their keys -/

/-- A kind of scalars that are compared in one way. -/
inductive Family where
  /-- Truth values and whole numbers. -/
  | whole
  | text

namespace Family

def Key : Family → Type
  | whole => Int
  | text => String

def contains : Family → Value → Bool
  | whole, .bool _ => true
  | whole, .int _ => true
  | text, .str _ => true
  | _, _ => false

def key? : (T : Family) → Value → Option T.Key
  | whole, .bool b => some (if b then 1 else 0 : Int64).toInt
  | whole, .int n => some n.toInt
  | text, .str s => some s
  | _, _ => none

instance : ∀ T : Family, Ord T.Key
  | whole => inferInstanceAs (Ord Int)
  | text => inferInstanceAs (Ord String)

instance : ∀ T : Family, Std.TransOrd T.Key
  | whole => inferInstanceAs (Std.TransOrd Int)
  | text => inferInstanceAs (Std.TransOrd String)

/-- The key of data whose scalars are at a depth: a key or a list of keys, or nothing for what is
unset. -/
def KeyAt (T : Family) : Nat → Type
  | 0 => Option T.Key
  | n + 1 => Option (List (T.KeyAt n))

instance ordKeyAt (T : Family) : ∀ n, Ord (T.KeyAt n)
  | 0 => inferInstanceAs (Ord (Option T.Key))
  | n + 1 =>
    have := ordKeyAt T n
    inferInstanceAs (Ord (Option (List (T.KeyAt n))))

instance transKeyAt (T : Family) : ∀ n, Std.TransOrd (T.KeyAt n)
  | 0 => inferInstanceAs (Std.TransOrd (Option T.Key))
  | n + 1 =>
    have := transKeyAt T n
    inferInstanceAs (Std.TransOrd (Option (List (T.KeyAt n))))

theorem exists_key_of_contains {T : Family} {v : Value} (h : T.contains v = true) :
    ∃ k, T.key? v = some k := by
  cases T <;> cases v <;> cases h <;> exact ⟨_, rfl⟩

theorem contains_of_key {T : Family} {v : Value} {k : T.Key} (h : T.key? v = some k) :
    T.contains v = true := by
  cases T <;> cases v <;> cases h <;> rfl

theorem isArray_of_key {T : Family} {v : Value} {k : T.Key} (h : T.key? v = some k) :
    v.isArray = false := by
  cases v with
  | array a => cases T <;> cases h
  | _ => rfl

/-- Scalars of one kind are compared by their keys. -/
theorem scalarOrder_key {T : Family} (σ : Store) {x y : Value} {k k' : T.Key}
    (hx : T.key? x = some k) (hy : T.key? y = some k') :
    Walk.scalarOrder σ x y = Ord.compare k k' := by
  cases T <;> cases x <;> cases hx <;> cases y <;> cases hy <;> rfl

theorem isNaN_of_key {T : Family} {v : Value} {k : T.Key} (h : T.key? v = some k) :
    v.isNaN = false := by
  cases T <;> cases v <;> cases h <;> rfl

theorem scalarOrder_invalid_left {T : Family} (σ : Store) {y : Value} {k : T.Key}
    (hy : T.key? y = some k) :
    Walk.scalarOrder σ .invalid y = .lt := by
  cases T <;> cases y <;> cases hy <;> rfl

theorem scalarOrder_invalid_right {T : Family} (σ : Store) {x : Value} {k : T.Key}
    (hx : T.key? x = some k) :
    Walk.scalarOrder σ x .invalid = .gt := by
  cases T <;> cases x <;> cases hx <;> rfl

end Family

/-! ## 2. Keys of values -/

namespace Walk

variable {σ : Store} {slot : Reader} {T : Family} {n : Nat} {pairs : OpenPairs} {v w x : Value}
  {a b : ArrayId}

/-- The key of a value whose scalars are of one kind and all at one depth. -/
def key? (σ : Store) (slot : Reader) (T : Family) : (n : Nat) → Value → Option (T.KeyAt n)
  | 0, v => do
    match ← resolve slot v with
    | .invalid => some none
    | x => (T.key? x).map some
  | n + 1, v => do
    match ← resolve slot v with
    | .invalid => some none
    | .array a => ((σ.items a).toList.mapM (key? σ slot T n)).map some
    | _ => none

theorem key?_zero {k : T.KeyAt 0} (h : key? σ slot T 0 v = some k) :
    ∃ x, resolve slot v = some x ∧
      ((x = .invalid ∧ k = none) ∨ ∃ t, T.key? x = some t ∧ k = some t) := by
  simp only [key?, Option.bind_eq_bind, Option.bind_eq_some_iff] at h
  obtain ⟨x, hx, h⟩ := h
  refine ⟨x, hx, ?_⟩
  split at h
  · exact .inl ⟨rfl, (Option.some.inj h).symm⟩
  · obtain ⟨t, ht, rfl⟩ := Option.map_eq_some_iff.1 h
    exact .inr ⟨t, ht, rfl⟩

theorem key?_scalar {t : T.Key} (hx : resolve slot v = some x) (ht : T.key? x = some t) :
    key? σ slot T 0 v = some (some t) := by
  simp only [key?, hx, Option.bind_eq_bind, Option.bind_some]
  cases x with
  | invalid => cases T <;> cases ht
  | _ => exact congrArg (Option.map some) ht

theorem key?_succ {k : T.KeyAt (n + 1)} (h : key? σ slot T (n + 1) v = some k) :
    ∃ x, resolve slot v = some x ∧ ((x = .invalid ∧ k = none) ∨
      ∃ a ks, x = .array a ∧ k = some ks ∧
        List.Forall₂ (fun y k => key? σ slot T n y = some k) (σ.items a).toList ks) := by
  simp only [key?, Option.bind_eq_bind, Option.bind_eq_some_iff] at h
  obtain ⟨x, hx, h⟩ := h
  refine ⟨x, hx, ?_⟩
  split at h
  · exact .inl ⟨rfl, (Option.some.inj h).symm⟩
  · next a =>
    obtain ⟨ks, hks, rfl⟩ := Option.map_eq_some_iff.1 h
    exact .inr ⟨a, ks, rfl, rfl, mapM_eq_some_iff.1 hks⟩
  · cases h

/-- References do not show in keys. -/
theorem key?_resolved (hx : resolve slot v = some x) : key? σ slot T n x = key? σ slot T n v := by
  cases n with
  | zero => simp only [key?, resolve_resolved hx]
  | succ n => simp only [key?, resolve_resolved hx]

/-! ## 3. Open arrays lie above -/

/-- At some depth a value has a key where none of the arrays has one that are open on the left. -/
def Beneath (σ : Store) (slot : Reader) (T : Family) (pairs : OpenPairs) (v : Value) : Prop :=
  ∃ n, (∃ k, key? σ slot T n v = some k) ∧ ∀ p ∈ pairs, ∀ m ≤ n, key? σ slot T m (.array p.1) = none

/-- An array beneath the open ones is none of them. -/
theorem Beneath.not_mem (h : Beneath σ slot T pairs v) (ha : resolve slot v = some (.array a)) :
    (a, b) ∉ pairs := by
  intro hmem
  obtain ⟨n, ⟨k, hk⟩, hopen⟩ := h
  rw [← key?_resolved ha, hopen (a, b) hmem n (Nat.le_refl n)] at hk
  cases hk

/-- Empty and unset data has keys at many depths, of which the least one counts. -/
theorem exists_least_key {k : T.KeyAt n} (h : key? σ slot T n v = some k) :
    ∃ m ≤ n, (∃ k, key? σ slot T m v = some k) ∧ ∀ j < m, key? σ slot T j v = none := by
  classical
  have hexists : ∃ m, ∃ k, key? σ slot T m v = some k := ⟨n, k, h⟩
  refine ⟨Nat.find hexists, Nat.find_min' hexists ⟨k, h⟩, Nat.find_spec hexists, fun j hj => ?_⟩
  exact Option.eq_none_iff_forall_ne_some.2 fun k hk => Nat.find_min hexists hj ⟨k, hk⟩

/-- The elements of an array lie beneath it, as is seen at the least depth at which it has a key. -/
theorem Beneath.item (h : Beneath σ slot T pairs v) (ha : resolve slot v = some (.array a))
    (hx : x ∈ σ.items a) :
    Beneath σ slot T ((a, b) :: pairs) x := by
  obtain ⟨n, ⟨k, hk⟩, hopen⟩ := h
  obtain ⟨m, hmn, ⟨k, hk⟩, hleast⟩ := exists_least_key ((key?_resolved ha).trans hk)
  cases m with
  -- An array has no key at the depth of scalars.
  | zero =>
    obtain ⟨y, hy, ⟨rfl, -⟩ | ⟨t, ht, -⟩⟩ := key?_zero hk
    · cases hy
    · cases hy
      cases Family.isArray_of_key ht
  | succ m =>
    obtain ⟨y, hy, ⟨rfl, -⟩ | ⟨c, ks, rfl, -, hks⟩⟩ := key?_succ hk
    · cases hy
    · cases hy
      refine ⟨m, exists_of_forall₂ hks x (Array.mem_toList_iff.2 hx), fun p hp j hj => ?_⟩
      rcases List.mem_cons.1 hp with rfl | hp
      · exact hleast j (by omega)
      · exact hopen p hp j (by omega)

/-! ## 4. Comparing values is comparing keys

The order of keys is transitive, so what the walk gives on homogeneous data is. -/

/-- If elements are compared by their keys, then lists are compared by the lists of keys. -/
theorem lexicographic_key {κ : Type} [Ord κ] {key : Value → Option κ}
    {cmp : Value → Value → Option Ordering} {xs ys : List Value} {ks ks' : List κ}
    (hxs : List.Forall₂ (fun x k => key x = some k) xs ks)
    (hys : List.Forall₂ (fun y k => key y = some k) ys ks')
    (hcmp : ∀ x ∈ xs, ∀ y k k', key x = some k → key y = some k' →
      cmp x y = some (Ord.compare k k')) :
    lexicographic cmp xs ys = some (Ord.compare ks ks') := by
  induction hxs generalizing ys ks' with
  | nil => cases hys <;> rfl
  | @cons x k xs ks hx _ ih =>
    cases hys with
    | nil => rfl
    | @cons y k' ys ks' hy hys =>
      have hrest := ih hys fun z hz => hcmp z (by simp [hz])
      simp only [lexicographic, hcmp x (by simp) y k k' hx hy, Option.bind_eq_bind,
        Option.bind_some, List.compare_cons_cons]
      cases Ord.compare k k' with
      | eq => exact hrest
      | lt | gt => rfl

/-- By induction on the depth: homogeneous values are compared by their keys. -/
theorem compare_eq_key (n : Nat) : ∀ {pairs : OpenPairs} {v w : Value} {k k' : T.KeyAt n},
    key? σ slot T n v = some k → key? σ slot T n w = some k' → Beneath σ slot T pairs v →
      compare σ slot (n + 1) pairs v w = some (Ord.compare k k') := by
  induction n with
  | zero =>
    intro pairs v w k k' hv hw _
    obtain ⟨x, hx, ⟨rfl, rfl⟩ | ⟨t, ht, rfl⟩⟩ := key?_zero hv <;>
      obtain ⟨y, hy, ⟨rfl, rfl⟩ | ⟨t', ht', rfl⟩⟩ := key?_zero hw
    · exact compare_scalars hx hy rfl rfl
    · rw [compare_scalars hx hy rfl (Family.isArray_of_key ht'),
        Family.scalarOrder_invalid_left σ ht']
      rfl
    · rw [compare_scalars hx hy (Family.isArray_of_key ht) rfl,
        Family.scalarOrder_invalid_right σ ht]
      rfl
    · rw [compare_scalars hx hy (Family.isArray_of_key ht) (Family.isArray_of_key ht'),
        Family.scalarOrder_key σ ht ht']
      rfl
  | succ n ih =>
    intro pairs v w k k' hv hw hbeneath
    obtain ⟨x, hx, ⟨rfl, rfl⟩ | ⟨a, ks, rfl, rfl, hks⟩⟩ := key?_succ hv <;>
      obtain ⟨y, hy, ⟨rfl, rfl⟩ | ⟨b, ks', rfl, rfl, hks'⟩⟩ := key?_succ hw
    · exact compare_scalars hx hy rfl rfl
    · exact compare_array_right hx hy rfl
    · exact compare_array_left hx hy rfl
    · rw [compare_arrays hx hy]
      split
      · next hknown =>
        -- The same array has the same key.
        obtain rfl := hknown.resolve_right (hbeneath.not_mem hx)
        have hkey := (key?_resolved hx).trans hv
        rw [key?_resolved hy, hw] at hkey
        cases hkey
        exact congrArg some (Std.ReflOrd.compare_self (α := T.KeyAt (n + 1))).symm
      · exact lexicographic_key hks hks' fun z hz z' l l' hl hl' =>
          ih hl hl' (hbeneath.item hx (Array.mem_toList_iff.1 hz))

theorem exists_resolve_of_key {k : T.KeyAt n} (h : key? σ slot T n v = some k) :
    ∃ x, resolve slot v = some x ∧ x.isNaN = false := by
  cases n with
  | zero =>
    obtain ⟨x, hx, ⟨rfl, -⟩ | ⟨t, ht, -⟩⟩ := key?_zero h
    · exact ⟨_, hx, rfl⟩
    · exact ⟨x, hx, Family.isNaN_of_key ht⟩
  | succ n =>
    obtain ⟨x, hx, ⟨rfl, -⟩ | ⟨a, ks, rfl, -, -⟩⟩ := key?_succ h
    · exact ⟨_, hx, rfl⟩
    · exact ⟨_, hx, rfl⟩

theorem halts_mapM {α β : Type} {g : Nat → α → Option β} {xs : List α}
    (h : ∀ x ∈ xs, Halts (g · x)) :
    Halts fun fuel => xs.mapM (g fuel) := by
  induction xs with
  | nil => exact .pure []
  | cons x xs ih =>
    simp only [List.mapM_cons]
    refine (h x (by simp)).bind fun y _ => ?_
    exact (ih fun z hz => h z (by simp [hz])).bind fun ys _ => .pure (y :: ys)

end Walk

/-! ## 5. Homogeneous data

The key of a value does not depend on the fuel once there is one. -/

namespace Store

variable {σ : Store} {T : Family} {n : Nat} {v w : Value}

/-- Scalars of one kind, all at the same depth of arrays, where anything may be unset.  References
count as what they stand for. -/
def Homogeneous (σ : Store) (T : Family) : Nat → Value → Prop
  | 0, v => σ.ResolvesTo v .invalid ∨ ∃ x, σ.ResolvesTo v x ∧ T.contains x = true
  | n + 1, v =>
    σ.ResolvesTo v .invalid ∨ ∃ a, σ.ResolvesTo v (.array a) ∧ ∀ x ∈ σ.items a, σ.Homogeneous T n x

theorem halts_resolve {x : Value} (h : σ.ResolvesTo v x) {β : Type} {g : Nat → Value → Option β}
    (hg : Walk.Halts (g · x)) :
    Walk.Halts fun fuel => Walk.resolve (σ.slot fuel) v >>= g fuel := by
  refine Walk.Halts.bind (Walk.Finds.halts h (steady_resolve v)) fun y hy => ?_
  obtain rfl := Walk.Finds.unique (steady_resolve v) h hy
  exact hg

/-- Homogeneous data has a key. -/
theorem Homogeneous.halts_key : ∀ {n : Nat} {v : Value}, σ.Homogeneous T n v →
    Walk.Halts fun fuel => Walk.key? σ (σ.slot fuel) T n v
  | 0, v, .inl h => halts_resolve h (.pure none)
  | 0, v, .inr ⟨x, ⟨fuel, hx⟩, hmember⟩ => by
    obtain ⟨k, hk⟩ := Family.exists_key_of_contains hmember
    exact ⟨some k, fuel, fun m hm => Walk.key?_scalar (resolve_mono hm hx) hk⟩
  | n + 1, v, .inl h => halts_resolve h (.pure none)
  | n + 1, v, .inr ⟨a, ha, hitems⟩ => by
    refine halts_resolve ha ?_
    exact (Walk.halts_mapM fun x hx => (hitems x (Array.mem_toList_iff.1 hx)).halts_key).map some

/-- What has a key is homogeneous. -/
theorem homogeneous_of_key (fuel : Nat) : ∀ {n : Nat} {v : Value} {k : T.KeyAt n},
    Walk.key? σ (σ.slot fuel) T n v = some k → σ.Homogeneous T n v
  | 0, v, k, h => by
    obtain ⟨x, hx, ⟨rfl, -⟩ | ⟨t, ht, -⟩⟩ := Walk.key?_zero h
    · exact .inl ⟨fuel, hx⟩
    · exact .inr ⟨x, ⟨fuel, hx⟩, Family.contains_of_key ht⟩
  | n + 1, v, k, h => by
    obtain ⟨x, hx, ⟨rfl, -⟩ | ⟨a, ks, rfl, -, hks⟩⟩ := Walk.key?_succ h
    · exact .inl ⟨fuel, hx⟩
    · refine .inr ⟨a, ⟨fuel, hx⟩, fun y hy => ?_⟩
      obtain ⟨l, hl⟩ := Walk.exists_of_forall₂ hks y (Array.mem_toList_iff.2 hy)
      exact homogeneous_of_key fuel hl

abbrev HomogeneousData (σ : Store) (T : Family) (n : Nat) : Type :=
  {v : Value // σ.Homogeneous T n v}

/-- On homogeneous data the order is a total preorder: there is one order, reflexive, total and
transitive, also where one of two steps is strict, that every comparison comes to an end with, as do
the relations that look at the order. -/
theorem homogeneous_data_is_ordered (σ : Store) (T : Family) (n : Nat) :
    ∃ order : σ.HomogeneousData T n → σ.HomogeneousData T n → Ordering,
      (∀ v, order v v = .eq) ∧ (∀ v w, (order v w).isLE ∨ (order w v).isLE) ∧ Std.TransCmp order ∧
      (∀ u v w, (order u v).isLE → order v w = .lt → order u w = .lt) ∧
      ∀ v w : σ.HomogeneousData T n, ∃ bound, ∀ fuel, bound ≤ fuel →
        σ.compare fuel v w = some (order v w) ∧
        σ.verdict fuel v w = some (.ofOrdering (order v w)) ∧
        σ.binary fuel .spaceship v w = some (.int (orderingWord (order v w))) := by
  choose key bound hkey using fun v : σ.HomogeneousData T n => v.2.halts_key
  let order : σ.HomogeneousData T n → σ.HomogeneousData T n → Ordering :=
    fun v w => Ord.compare (key v) (key w)
  have hlawful : Std.TransCmp order :=
    { eq_swap := fun {_ _} => Std.OrientedOrd.eq_swap
      isLE_trans := fun {_ _ _} => Std.TransOrd.isLE_trans }
  refine ⟨order, fun v => Std.ReflCmp.compare_self, fun v w => ?_, hlawful,
    fun u v w => Std.TransCmp.lt_of_isLE_of_lt, fun v w => ?_⟩
  · have hswap : order w v = (order v w).swap := hlawful.eq_swap
    rw [hswap]
    cases order v w <;> decide
  · refine ⟨max (n + 1) (max (bound v) (bound w)), fun fuel hfuel => ?_⟩
    have hv := hkey v fuel (by omega)
    have hw := hkey w fuel (by omega)
    have hnone : Walk.Beneath σ (σ.slot fuel) T [] v :=
      ⟨n, ⟨_, hv⟩, fun p hp => absurd hp List.not_mem_nil⟩
    have horder : σ.compare fuel v w = some (order v w) :=
      Walk.compare_below (fun _ _ hr => hr) (by omega) [] v.1 w.1 _
      (Walk.compare_eq_key n hv hw hnone)
    obtain ⟨x, hx, hx'⟩ := Walk.exists_resolve_of_key hv
    obtain ⟨y, hy, hy'⟩ := Walk.exists_resolve_of_key hw
    have hverdict := verdict_eq hx hy horder
    rw [hx', hy'] at hverdict
    exact ⟨horder, hverdict, binary_spaceship horder⟩

/-- Tables of truth values and numbers with a row that they share, a row behind the variable `x`,
and unset cells. -/
def tables : Store where
  arrays := #[#[.int 1, .bool true], #[.invalid, .int 2],
    #[.array ⟨0⟩, .reference (.binding ⟨⟨0⟩, []⟩ "x"), .array ⟨0⟩],
    #[.array ⟨0⟩, .invalid]]
  scopes := #[⟨[("x", .array ⟨1⟩)]⟩]
  functions := #[]

theorem tables_ordered :
    ∃ v w : tables.HomogeneousData .whole 2, v.1 = .array ⟨3⟩ ∧ w.1 = .array ⟨2⟩ ∧
      ∃ order : tables.HomogeneousData .whole 2 → tables.HomogeneousData .whole 2 → Ordering,
        Std.TransCmp order ∧ order v w = .lt ∧
        ∃ bound, ∀ fuel, bound ≤ fuel →
          tables.compare fuel v w = some .lt ∧ tables.compare fuel w v = some .gt := by
  let v : tables.HomogeneousData .whole 2 := ⟨.array ⟨3⟩, homogeneous_of_key 5 rfl⟩
  let w : tables.HomogeneousData .whole 2 := ⟨.array ⟨2⟩, homogeneous_of_key 5 rfl⟩
  obtain ⟨order, -, -, hlawful, -, horder⟩ := homogeneous_data_is_ordered tables .whole 2
  obtain ⟨bound, hvw⟩ := horder v w
  obtain ⟨bound', hwv⟩ := horder w v
  have hless : order v w = .lt :=
    Option.some.inj ((hvw (max bound 5) (by omega)).1.symm.trans
      (tables.compare_below (Nat.le_max_right bound 5) v.1 w.1 .lt rfl))
  have hgreater : order w v = .gt := by
    rw [hlawful.eq_swap, hless]
    rfl
  refine ⟨v, w, rfl, rfl, order, hlawful, hless, max bound bound', fun fuel hfuel => ⟨?_, ?_⟩⟩
  · rw [(hvw fuel (by omega)).1, hless]
  · rw [(hwv fuel (by omega)).1, hgreater]

end Store
end Scriptlet
