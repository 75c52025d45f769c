import Scriptlet.Proofs.IdentityOfCopies

/-!
# Values that are equal in order

Identity and order are two walks over the same arrays, each with its own list of open pairs.  Where
one step of a walk finds equal scalars, arrays that are the same or open, or arrays of the same
length whose elements are related again, the order of the two values is that of equals
(`Walk.compare_of_simulation`).  There are two relations of this kind here.  The walk for identity
is one: what it accepts, it accepts step by step with the pairs open that the order has open.
Having the same unfolding is the other one, and it does not mind NaN.

That identical values compare as equal ties `===` to `==` and `<=>` of §4.3 of the specification.
-/

namespace Scriptlet

/-! ## 1. Equal scalars and equal lists -/

theorem Binary64.compare_of_orderKey {x y : Float} (h : Binary64.orderKey x = Binary64.orderKey y) :
    Binary64.compare x y = .eq := by
  unfold Binary64.compare
  rw [Binary64.isNaN_of_orderKey h, h]
  cases Binary64.isNaN y with
  | true => rfl
  | false => exact Std.ReflOrd.compare_self

namespace Walk

variable {σ : Store} {slot : Reader}

/-- Comparing a scalar with itself gives an order that is its own reverse. -/
theorem scalarOrder_self (x : Value) : scalarOrder σ x x = .eq := by
  have hswap : scalarOrder σ x x = (scalarOrder σ x x).swap := scalarOrder_swap x x
  cases ho : scalarOrder σ x x with
  | eq => rfl
  | lt | gt =>
    rw [ho] at hswap
    cases hswap

/-- Scalars that are alike differ only if they are the two zeros, or NaNs with different bits. -/
theorem eq_or_float_of_alike {x y : Value} (h : σ.Alike x y) (hx : x.isArray = false) :
    x = y ∨ ∃ a b, x = .float a ∧ y = .float b ∧ Binary64.orderKey a = Binary64.orderKey b := by
  cases x <;> cases y <;> simp_all [Store.Alike, Value.isArray]

/-- Scalars that are alike are equal in order, NaN among them. -/
theorem scalarOrder_of_alike {x y : Value} (h : σ.Alike x y) (hx : x.isArray = false) :
    scalarOrder σ x y = .eq := by
  obtain rfl | ⟨a, b, rfl, rfl, hkey⟩ := eq_or_float_of_alike h hx
  · exact scalarOrder_self x
  · simp only [scalarOrder, Value.isNaN, Binary64.isNaN_of_orderKey hkey]
    cases Binary64.isNaN b with
    | true => rfl
    | false => exact Binary64.compare_of_orderKey hkey

/-- Lists of the same length are equal in order if their elements are. -/
theorem lexicographic_eq {cmp : Value → Value → Option Ordering} :
    ∀ {xs ys : List Value}, xs.length = ys.length →
      (∀ (i : Nat) x y, xs[i]? = some x → ys[i]? = some y → cmp x y = some .eq) →
        lexicographic cmp xs ys = some .eq
  | [], [], _, _ => rfl
  | x :: xs, y :: ys, hlength, h => by
    have hrest : lexicographic cmp xs ys = some .eq :=
      lexicographic_eq (Nat.succ.inj hlength) fun i u w hu hw => h (i + 1) u w hu hw
    simp only [lexicographic, h 0 x y rfl rfl, Option.bind_eq_bind, Option.bind_some, hrest]

/-! ## 2. Equality step by step

The walk that compares goes along with any relation that looks like equality at each step; being
identical is one, and having the same unfolding another. -/

/-- What one step of a walk finds in two values that are equal if the relation `R` means equality:
equal scalars, or arrays that are the same, open, or of the same length with elements of which `R`
holds. -/
def LooksEqual (σ : Store) (slot : Reader) (R : OpenPairs → Value → Value → Prop)
    (pairs : OpenPairs) (l r : Value) : Prop :=
  ∃ x y, resolve slot l = some x ∧ resolve slot r = some y ∧
    ((x.isArray = false ∧ σ.Alike x y) ∨ ∃ a b, x = .array a ∧ y = .array b ∧
      ((a = b ∨ (a, b) ∈ pairs) ∨ (σ.items a).size = (σ.items b).size ∧
        ∀ (i : Nat) u w, (σ.items a)[i]? = some u → (σ.items b)[i]? = some w →
          R ((a, b) :: pairs) u w))

/-- A relation that looks like equality at every step gives values that are equal in order. -/
theorem compare_of_simulation {R : Nat → OpenPairs → Value → Value → Prop}
    (hzero : ∀ {pairs l r}, ¬ R 0 pairs l r)
    (hstep : ∀ {n pairs l r}, R (n + 1) pairs l r → LooksEqual σ slot (R n) pairs l r) :
    ∀ {n pairs l r}, R n pairs l r → compare σ slot n pairs l r = some .eq := by
  intro n
  induction n with
  | zero =>
    intro pairs l r h
    exact absurd h hzero
  | succ n ih =>
    intro pairs l r h
    obtain ⟨x, y, hx, hy, ⟨hscalar, halike⟩ | ⟨a, b, rfl, rfl, hwhy⟩⟩ := hstep h
    · have hscalar' : y.isArray = false := by
        rw [← Bool.not_eq_true, Value.isArray_iff]
        rintro ⟨b, rfl⟩
        obtain ⟨a, rfl⟩ := halike.symm.array_left
        cases hscalar
      rw [compare_scalars hx hy hscalar hscalar', scalarOrder_of_alike halike hscalar]
    · rw [compare_arrays hx hy]
      split
      · rfl
      · next hnew =>
        obtain ⟨hsize, hitems⟩ := hwhy.resolve_left hnew
        refine lexicographic_eq hsize fun i u w hu hw => ih (hitems i u w ?_ ?_)
        · rwa [← Array.getElem?_toList]
        · rwa [← Array.getElem?_toList]

/-- Every step of the walk for identity looks like equality. -/
theorem looksEqual_of_identical {n : Nat} {pairs : OpenPairs} {l r : Value}
    (h : identical σ slot (n + 1) pairs l r = some true) :
    LooksEqual σ slot (fun pairs l r => identical σ slot n pairs l r = some true) pairs l r := by
  obtain ⟨m, x, y, hm, hx, hy⟩ := resolved_of_identical h
  refine ⟨x, y, hx, hy, ?_⟩
  by_cases hboth : ∃ a b, x = .array a ∧ y = .array b
  · obtain ⟨a, b, rfl, rfl⟩ := hboth
    refine .inr ⟨a, b, rfl, rfl, ?_⟩
    rw [identical_arrays hx hy] at h
    split at h
    · next hknown => exact .inl hknown
    · split at h
      · cases h
      · next hsize =>
        refine .inr ⟨Decidable.not_not.1 hsize, fun i u w hu hw => allPairs_eq_true h i u w ?_ ?_⟩
        · rwa [Array.getElem?_toList]
        · rwa [Array.getElem?_toList]
  · obtain ⟨t, ht, hiff⟩ := identical_plain n pairs hx hy fun a b ha hb => hboth ⟨a, b, ha, hb⟩
    cases h.symm.trans ht
    have halike := (hiff.1 rfl).1
    refine .inl ⟨?_, halike⟩
    rw [← Bool.not_eq_true, Value.isArray_iff]
    rintro ⟨a, rfl⟩
    obtain ⟨b, rfl⟩ := halike.array_left
    exact hboth ⟨a, b, rfl, rfl⟩

/-- What the walk for identity accepts is equal in order, with the same fuel and the same pairs
open. -/
theorem compare_of_identical {n : Nat} {pairs : OpenPairs} {l r : Value}
    (h : identical σ slot n pairs l r = some true) :
    compare σ slot n pairs l r = some .eq :=
  compare_of_simulation (R := fun n pairs l r => identical σ slot n pairs l r = some true)
    (fun {_ _ _} h => nomatch h) looksEqual_of_identical h

/-- Values with the same unfolding are equal in order.  Each step opens a pair of arrays that was
not open, and both of them exist if there are elements to go on with. -/
theorem compare_of_sameUnfolding {fuel : Nat}
    (hitems : ∀ a, ∀ v ∈ σ.items a, ∃ w, resolve (σ.slot fuel) v = some w) {n : Nat}
    {pairs : OpenPairs} {l r x y : Value} (hroom : room (σ.arrayIds ×ˢ σ.arrayIds) pairs < n)
    (hl : resolve (σ.slot fuel) l = some x) (hr : resolve (σ.slot fuel) r = some y)
    (hsame : σ.SameUnfolding l r) :
    compare σ (σ.slot fuel) n pairs l r = some .eq := by
  refine compare_of_simulation
    (R := fun n pairs l r => room (σ.arrayIds ×ˢ σ.arrayIds) pairs < n ∧
      (∃ x y, resolve (σ.slot fuel) l = some x ∧ resolve (σ.slot fuel) r = some y) ∧
      σ.SameUnfolding l r)
    (fun h => Nat.not_lt_zero _ h.1) ?_ ⟨hroom, ⟨x, y, hl, hr⟩, hsame⟩
  rintro n pairs l r ⟨hroom, ⟨x, y, hl, hr⟩, hsame⟩
  have halike := hsame.alike ⟨fuel, hl⟩ ⟨fuel, hr⟩
  refine ⟨x, y, hl, hr, ?_⟩
  cases hx : x.isArray with
  | false => exact .inl ⟨rfl, halike⟩
  | true =>
    obtain ⟨a, rfl⟩ := Value.isArray_iff.1 hx
    obtain ⟨b, rfl⟩ := halike.array_left
    refine .inr ⟨a, b, rfl, rfl, ?_⟩
    by_cases hknown : a = b ∨ (a, b) ∈ pairs
    · exact .inl hknown
    · refine .inr ⟨halike, fun i u w hu hw => ?_⟩
      have hmem := Array.mem_of_getElem? hu
      have hmem' := Array.mem_of_getElem? hw
      obtain ⟨u', hu'⟩ := hitems a u hmem
      obtain ⟨w', hw'⟩ := hitems b w hmem'
      have hless := room_pair_lt hmem hmem' fun hopen => hknown (.inr hopen)
      exact ⟨by omega, ⟨u', w', hu', hw'⟩, hsame.item ⟨fuel, hl⟩ ⟨fuel, hr⟩ hu hw⟩

end Walk

/-! ## 3. Identity and equality -/

namespace Store

variable {σ : Store} {fuel : Nat} {v w : Value}

/-- Identical values are no NaN, so the relations follow the order. -/
theorem verdict_of_identical (h : σ.identical fuel v w = some true) :
    σ.compare fuel v w = some .eq ∧ σ.verdict fuel v w = some (.ofOrdering .eq) := by
  have horder : σ.compare fuel v w = some .eq := Walk.compare_of_identical h
  obtain ⟨m, x, y, rfl, hx, hy⟩ := Walk.resolved_of_identical h
  have hy' : y.isNaN = false := Walk.isNaN_of_identical h hy
  have hx' : x.isNaN = false := by
    rw [(sameUnfolding_of_identical h).alike ⟨_, hx⟩ ⟨_, hy⟩ |>.isNaN, hy']
  have hverdict := verdict_eq hx hy horder
  rw [hx', hy'] at hverdict
  exact ⟨horder, hverdict⟩

theorem binary_relation {op : RelationOp} {t : Bool} (h : σ.relation fuel op v w = some t) :
    σ.binary fuel (.relation op) v w = some (.bool t) :=
  congrArg (Option.map Value.bool) h

theorem binary_spaceship {o : Ordering} (h : σ.compare fuel v w = some o) :
    σ.binary fuel .spaceship v w = some (.int (orderingWord o)) :=
  congrArg (Option.map fun o => Value.int (orderingWord o)) h

/-- Identical values are equal in order and in every relation.  Wherever identity comes to an end
with a yes, the order comes to an end, too, and none of the arrays that are shared, hold themselves
or hold NaN makes a difference. -/
theorem identical_values_are_equal (σ : Store) (fuel : Nat) (v w : Value)
    (h : σ.binary fuel (.relation .identical) v w = some (.bool true)) :
    ∀ more, fuel ≤ more →
      σ.compare more v w = some .eq ∧ σ.binary more .spaceship v w = some (.int 0) ∧
      σ.binary more (.relation .eq) v w = some (.bool true) ∧
      σ.binary more (.relation .lessEq) v w = some (.bool true) ∧
      σ.binary more (.relation .greaterEq) v w = some (.bool true) := by
  intro more hmore
  have hidentical : σ.identical more v w = some true :=
    σ.identical_below hmore v w true (binary_identical_iff.1 h)
  obtain ⟨horder, hverdict⟩ := verdict_of_identical hidentical
  simp only [verdict, Option.bind_eq_bind, Option.bind_eq_some_iff] at hverdict
  obtain ⟨less, hless, equal, hequal, greater, hgreater, lessEq, hlessEq, greaterEq, hgreaterEq,
    hsame⟩ := hverdict
  cases hsame
  exact ⟨horder, binary_spaceship horder, binary_relation hequal, binary_relation hlessEq,
    binary_relation hgreaterEq⟩

/-- Two arrays that hold themselves, behind an array of NaN that they share, the second one through
the variable `x`. -/
def intertwined : Store where
  arrays := #[#[.float Binary64.nan], #[.array ⟨0⟩, .array ⟨1⟩],
    #[.reference (.binding ⟨⟨0⟩, []⟩ "x"), .array ⟨2⟩]]
  scopes := #[⟨[("x", .array ⟨0⟩)]⟩]
  functions := #[]

/-- The shared NaN is behind one and the same array, which is never opened. -/
theorem intertwined_equal :
    intertwined.binary 9 (.relation .identical) (.array ⟨1⟩) (.array ⟨2⟩) = some (.bool true) ∧
    ∀ more, 9 ≤ more →
      intertwined.compare more (.array ⟨1⟩) (.array ⟨2⟩) = some .eq ∧
      intertwined.binary more .spaceship (.array ⟨1⟩) (.array ⟨2⟩) = some (.int 0) ∧
      intertwined.binary more (.relation .eq) (.array ⟨1⟩) (.array ⟨2⟩) = some (.bool true) ∧
      intertwined.binary more (.relation .lessEq) (.array ⟨1⟩) (.array ⟨2⟩) = some (.bool true) ∧
      intertwined.binary more (.relation .greaterEq) (.array ⟨1⟩) (.array ⟨2⟩) =
        some (.bool true) := by
  have hidentical : intertwined.binary 9 (.relation .identical) (.array ⟨1⟩) (.array ⟨2⟩) =
      some (.bool true) := by
    decide +kernel
  exact ⟨hidentical, identical_values_are_equal intertwined 9 _ _ hidentical⟩

end Store
end Scriptlet
