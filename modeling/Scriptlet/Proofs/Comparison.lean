import Scriptlet.Proofs.Copying
import Scriptlet.Proofs.WriteRead
import Scriptlet.Store.Operate

/-!
# Comparing two values, and comparing them the other way round

`Walk.compare` goes by a list of cases in which the first one that fits decides, and it remembers
pairs of arrays in the order in which it meets them.  Here its cases become four equations, by which
of the two values are arrays.  Comparing the other way round swaps the answer in each of them.  The
open pairs are swapped too, except below a scalar, where the walk goes on with the array on the
left; but a comparison with a number opens no pair (`compare_numeric`).

The order is `Compare` of §4.3 of the specification, and what is said of the relations is the total
order that §8 asks for.
-/

namespace Scriptlet

/-! ## 1. Numbers and texts -/

theorem Binary64.compare_swap (x y : Float) :
    Binary64.compare x y = (Binary64.compare y x).swap := by
  unfold Binary64.compare
  cases Binary64.isNaN x <;> cases Binary64.isNaN y
  case false.false => exact Std.OrientedOrd.eq_swap
  all_goals rfl

theorem Number.compare_swap (m n : Number) : m.compare n = (n.compare m).swap := by
  cases m <;> cases n
  case int.int => exact Std.OrientedOrd.eq_swap
  all_goals exact Binary64.compare_swap _ _

def Value.isArray : Value → Bool
  | .array _ => true
  | _ => false

theorem Value.isArray_iff {v : Value} : v.isArray = true ↔ ∃ a, v = .array a := by
  cases v <;> simp [isArray]

namespace Walk

variable {σ : Store} {slot : Reader} {n : Nat} {pairs : OpenPairs} {l r x y : Value}

/-! ## 2. The cases of a comparison

Scalars against scalars, arrays against arrays, and arrays against scalars on either side. -/

def scalarOrder (σ : Store) (x y : Value) : Ordering :=
  match x.isNaN, y.isNaN with
  | true, true => .eq
  | true, false => .lt
  | false, true => .gt
  | false, false =>
    match x, y with
    | .invalid, .invalid => .eq
    | .invalid, _ => .lt
    | _, .invalid => .gt
    | .function f, .function g => Ord.compare f.index g.index
    | .function _, _ => .gt
    | _, .function _ => .lt
    | .str s, .str t => Ord.compare s t
    | .str s, v => compareText σ s v
    | v, .str s => (compareText σ s v).swap
    | x, y => (plainNumber x).compare (plainNumber y)

/-- The order of an array and a value that is none. -/
def arrayOrder (σ : Store) (slot : Reader) (n : Nat) (pairs : OpenPairs) (a : ArrayId) (v : Value) :
    Option Ordering :=
  if v.isNaN || v.isInvalid then some .gt
  else
    match (σ.items a).toList, v.isNumeric with
    | [item], true => compare σ slot n pairs item v
    | items, _ => do
      let text ← joinTexts (render σ slot n []) "," items
      return Ord.compare text (plainText σ v)

/-- A comparison looks at nothing but what its operands resolve to. -/
theorem exists_compare_eq (σ : Store) (slot : Reader) (n : Nat) (pairs : OpenPairs) :
    ∃ order : Value → Value → Option Ordering, ∀ l r, compare σ slot (n + 1) pairs l r =
      (resolve slot l).bind fun x => (resolve slot r).bind fun y => order x y :=
  ⟨_, fun _ _ => rfl⟩

/-- Neither operand is an array. -/
theorem compare_scalars (hl : resolve slot l = some x) (hr : resolve slot r = some y)
    (hx : x.isArray = false) (hy : y.isArray = false) :
    compare σ slot (n + 1) pairs l r = some (scalarOrder σ x y) := by
  simp only [compare, hl, hr, Option.bind_eq_bind, Option.bind_some, scalarOrder]
  cases x.isNaN <;> cases y.isNaN
  case false.false =>
    cases x with
    | array a => cases hx
    | _ =>
      cases y with
      | array b => cases hy
      | _ => rfl
  all_goals rfl

/-- Both operands are arrays: they are compared element by element unless they are the same array or
an open pair. -/
theorem compare_arrays {a b : ArrayId} (hl : resolve slot l = some (.array a))
    (hr : resolve slot r = some (.array b)) :
    compare σ slot (n + 1) pairs l r =
      if a = b ∨ (a, b) ∈ pairs then some .eq
      else
        lexicographic (compare σ slot n ((a, b) :: pairs)) (σ.items a).toList
          (σ.items b).toList := by
  simp only [compare, hl, hr, Option.bind_eq_bind, Option.bind_some]
  rfl

/-- Only the left operand is an array. -/
theorem compare_array_left {a : ArrayId} (hl : resolve slot l = some (.array a))
    (hr : resolve slot r = some y) (hy : y.isArray = false) :
    compare σ slot (n + 1) pairs l r = arrayOrder σ slot n pairs a y := by
  have ha : (Value.array a).isNaN = false := rfl
  simp only [compare, hl, hr, Option.bind_eq_bind, Option.bind_some, arrayOrder, ha]
  cases y.isNaN with
  | true => rfl
  | false =>
    cases y with
    | array b => cases hy
    | _ => rfl

/-- Only the right operand is an array: the comparison is made with the array on the left, and
swapped. -/
theorem compare_array_right {b : ArrayId} (hl : resolve slot l = some x)
    (hr : resolve slot r = some (.array b)) (hx : x.isArray = false) :
    compare σ slot (n + 1) pairs l r = (arrayOrder σ slot n pairs b x).map Ordering.swap := by
  have hb : (Value.array b).isNaN = false := rfl
  simp only [compare, hl, hr, Option.bind_eq_bind, Option.bind_some, arrayOrder, hb]
  cases x.isNaN with
  | true => rfl
  | false =>
    cases x with
    | array a => cases hx
    | _ => rfl

/-! ## 3. The other way round

Each of the four equations is turned into the one for the exchanged operands.  The induction is on
the fuel, over all lists of open pairs, because a pair that is opened on one side is opened on the
other side in the opposite order. -/

theorem scalarOrder_swap (x y : Value) : scalarOrder σ x y = (scalarOrder σ y x).swap := by
  unfold scalarOrder
  cases x.isNaN <;> cases y.isNaN
  case false.false =>
    cases x with
    | invalid => cases y <;> rfl
    | function f =>
      cases y with
      | function g => exact Std.OrientedOrd.eq_swap
      | _ => rfl
    | str s =>
      cases y with
      | invalid => rfl
      | function g => rfl
      | str t => exact Std.OrientedOrd.eq_swap
      | _ => exact Ordering.swap_swap.symm
    | _ =>
      cases y with
      | invalid => rfl
      | function g => rfl
      | str t => rfl
      | _ => exact Number.compare_swap _ _
  all_goals rfl

theorem lexicographic_swap {cmp cmp' : Value → Value → Option Ordering}
    (h : ∀ x y, cmp x y = (cmp' y x).map Ordering.swap) :
    ∀ xs ys, lexicographic cmp xs ys = (lexicographic cmp' ys xs).map Ordering.swap
  | [], [] => rfl
  | [], _ :: _ => rfl
  | _ :: _, [] => rfl
  | x :: xs, y :: ys => by
    simp only [lexicographic, h x y, Option.bind_eq_bind]
    cases cmp' y x with
    | none => rfl
    | some o =>
      cases o with
      | eq => exact lexicographic_swap h xs ys
      | lt => rfl
      | gt => rfl

theorem resolve_numeric {v : Value} (hv : v.isNumeric = true) : resolve slot v = some v := by
  cases v with
  | bool b => rfl
  | int m => rfl
  | float z => rfl
  | _ => cases hv

/-- A comparison with a number never meets two arrays, so it does not depend on the open pairs. -/
theorem compare_numeric {v : Value} (hv : v.isNumeric = true) (pairs pairs' : OpenPairs) :
    ∀ (n : Nat) (l : Value), compare σ slot n pairs l v = compare σ slot n pairs' l v := by
  have hscalar : v.isArray = false := by
    cases v with
    | array a => cases hv
    | _ => rfl
  intro n
  induction n with
  | zero =>
    intro l
    rfl
  | succ n ih =>
    intro l
    cases hl : resolve slot l with
    | none =>
      obtain ⟨order, horder⟩ := exists_compare_eq σ slot n pairs
      obtain ⟨order', horder'⟩ := exists_compare_eq σ slot n pairs'
      rw [horder, horder', hl, Option.bind_none, Option.bind_none]
    | some x =>
      by_cases hx : x.isArray = true
      · obtain ⟨a, rfl⟩ := Value.isArray_iff.1 hx
        rw [compare_array_left hl (resolve_numeric hv) hscalar,
          compare_array_left hl (resolve_numeric hv) hscalar]
        simp only [arrayOrder, ih]
      · rw [Bool.not_eq_true] at hx
        rw [compare_scalars hl (resolve_numeric hv) hx hscalar,
          compare_scalars hl (resolve_numeric hv) hx hscalar]

/-- Neither does a comparison of an array with a scalar. -/
theorem arrayOrder_pairs (pairs pairs' : OpenPairs) (a : ArrayId) (v : Value) :
    arrayOrder σ slot n pairs a v = arrayOrder σ slot n pairs' a v := by
  unfold arrayOrder
  split
  · rfl
  · split
    · next item _ hnumeric => exact compare_numeric hnumeric pairs pairs' n item
    · rfl

theorem mem_map_swap {a b : ArrayId} : (b, a) ∈ pairs.map Prod.swap ↔ (a, b) ∈ pairs := by
  constructor
  · intro h
    obtain ⟨⟨c, d⟩, hmem, heq⟩ := List.mem_map.1 h
    cases heq
    exact hmem
  · intro h
    exact List.mem_map.2 ⟨(a, b), h, rfl⟩

/-- Comparing the other way round swaps the order. -/
theorem compare_swap (n : Nat) : ∀ (pairs : OpenPairs) (l r : Value),
    compare σ slot n pairs l r =
      (compare σ slot n (pairs.map Prod.swap) r l).map Ordering.swap := by
  induction n with
  | zero =>
    intro pairs l r
    rfl
  | succ n ih =>
    intro pairs l r
    obtain ⟨order, horder⟩ := exists_compare_eq σ slot n pairs
    obtain ⟨order', horder'⟩ := exists_compare_eq σ slot n (pairs.map Prod.swap)
    cases hl : resolve slot l with
    | none => cases hr : resolve slot r <;> simp [horder, horder', hl, hr]
    | some x =>
      cases hr : resolve slot r with
      | none => simp [horder, horder', hl, hr]
      | some y =>
        cases hx : x.isArray <;> cases hy : y.isArray
        case false.false =>
          rw [compare_scalars hl hr hx hy, compare_scalars hr hl hy hx, scalarOrder_swap x y]
          rfl
        case false.true =>
          obtain ⟨b, rfl⟩ := Value.isArray_iff.1 hy
          -- The pairs are swapped on one side only, which makes no difference next to a scalar.
          rw [compare_array_right hl hr hx, compare_array_left hr hl hx, arrayOrder_pairs pairs]
        case true.false =>
          obtain ⟨a, rfl⟩ := Value.isArray_iff.1 hx
          rw [compare_array_left hl hr hy, compare_array_right hr hl hy,
            arrayOrder_pairs pairs (pairs.map Prod.swap)]
          simp [Function.comp_def]
        -- A pair is open on one side exactly if the swapped pair is open on the other side.
        case true.true =>
          obtain ⟨a, rfl⟩ := Value.isArray_iff.1 hx
          obtain ⟨b, rfl⟩ := Value.isArray_iff.1 hy
          have hknown : (a = b ∨ (a, b) ∈ pairs) ↔ (b = a ∨ (b, a) ∈ pairs.map Prod.swap) := by
            rw [mem_map_swap, eq_comm]
          rw [compare_arrays hl hr, compare_arrays hr hl]
          by_cases h : a = b ∨ (a, b) ∈ pairs
          · rw [if_pos h, if_pos (hknown.1 h)]
            rfl
          · rw [if_neg h, if_neg (fun h' => h (hknown.2 h'))]
            exact lexicographic_swap (ih ((a, b) :: pairs)) _ _

theorem resolved_of_compare {o : Ordering} (h : compare σ slot n pairs l r = some o) :
    ∃ m x y, n = m + 1 ∧ resolve slot l = some x ∧ resolve slot r = some y := by
  cases n with
  | zero => cases h
  | succ m =>
    obtain ⟨order, horder⟩ := exists_compare_eq σ slot m pairs
    simp only [horder, Option.bind_eq_some_iff] at h
    obtain ⟨x, hx, y, hy, -⟩ := h
    exact ⟨m, x, y, rfl, hx, hy⟩

/-- Values may be resolved before they are compared. -/
theorem compare_resolved (hl : resolve slot l = some x) (hr : resolve slot r = some y) :
    compare σ slot n pairs x y = compare σ slot n pairs l r := by
  have hx : resolve slot x = some x := follow_plain (follow_isReference hopLimit hl) hopLimit
  have hy : resolve slot y = some y := follow_plain (follow_isReference hopLimit hr) hopLimit
  cases n with
  | zero => rfl
  | succ n =>
    obtain ⟨order, horder⟩ := exists_compare_eq σ slot n pairs
    rw [horder, horder, hl, hr, hx, hy]

/-- NaN comes first, and is equal to NaN. -/
theorem compare_nan (n : Nat) (pairs : OpenPairs) (hl : resolve slot l = some x)
    (hr : resolve slot r = some y) (hnan : x.isNaN = true ∨ y.isNaN = true) :
    compare σ slot (n + 1) pairs l r = some (Ord.compare (!x.isNaN) (!y.isNaN)) := by
  simp only [compare, hl, hr, Option.bind_eq_bind, Option.bind_some]
  cases hx : x.isNaN <;> cases hy : y.isNaN
  case false.false => simp [hx, hy] at hnan
  all_goals rfl

end Walk

/-! ## 4. Relations

A verdict is what the five relations that go by order say about two values at once. -/

structure Verdict where
  less : Bool
  equal : Bool
  greater : Bool
  lessEq : Bool
  greaterEq : Bool
  deriving DecidableEq

namespace Verdict

/-- The verdict with the two values exchanged. -/
def flip (t : Verdict) : Verdict := ⟨t.greater, t.equal, t.less, t.greaterEq, t.lessEq⟩

def none : Verdict := ⟨false, false, false, false, false⟩

def ofOrdering (o : Ordering) : Verdict := ⟨o == .lt, o == .eq, o == .gt, o != .gt, o != .lt⟩

theorem ofOrdering_swap (o : Ordering) : ofOrdering o.swap = (ofOrdering o).flip := by
  cases o <;> rfl

/-- Exactly one of less, equal and greater holds, and the other two relations deny them. -/
structure Total (t : Verdict) : Prop where
  exactlyOne : [t.less, t.equal, t.greater].count true = 1
  lessEq : t.lessEq = !t.greater
  greaterEq : t.greaterEq = !t.less

theorem total_ofOrdering (o : Ordering) : (ofOrdering o).Total := by
  cases o <;> exact ⟨rfl, rfl, rfl⟩

end Verdict

namespace Store

variable {σ : Store} {fuel : Nat} {v w x y : Value} {o : Ordering}

def verdict (σ : Store) (fuel : Nat) (v w : Value) : Option Verdict := do
  return {
    less := ← σ.relation fuel .less v w
    equal := ← σ.relation fuel .eq v w
    greater := ← σ.relation fuel .greater v w
    lessEq := ← σ.relation fuel .lessEq v w
    greaterEq := ← σ.relation fuel .greaterEq v w }

theorem ordered_eq (accept : Ordering → Bool) (hv : σ.resolve fuel v = some x)
    (hw : σ.resolve fuel w = some y) (ho : σ.compare fuel v w = some o) :
    σ.ordered fuel accept v w = some (if x.isNaN || y.isNaN then false else accept o) := by
  simp only [ordered, hv, hw, ho, Option.bind_eq_bind, Option.bind_some]
  split <;> rfl

theorem any_numericView (v : Value) : (numericView v).any Number.isNaN = v.isNaN := by
  cases v <;> rfl

/-- Loose equality is equality in the order, except for NaN. -/
theorem looseEq_eq (hv : σ.resolve fuel v = some x) (hw : σ.resolve fuel w = some y)
    (ho : σ.compare fuel v w = some o) :
    σ.looseEq fuel v w = some (if x.isNaN || y.isNaN then false else o == .eq) := by
  have hresolved : σ.compare fuel x y = some o := (Walk.compare_resolved hv hw).trans ho
  simp only [looseEq, hv, hw, hresolved, any_numericView, Option.bind_eq_bind, Option.bind_some]
  split <;> rfl

/-- All relations answer as the order does, except for NaN. -/
theorem verdict_eq (hv : σ.resolve fuel v = some x) (hw : σ.resolve fuel w = some y)
    (ho : σ.compare fuel v w = some o) :
    σ.verdict fuel v w = some (if x.isNaN || y.isNaN then .none else .ofOrdering o) := by
  simp only [verdict, relation, looseEq_eq hv hw ho, ordered_eq _ hv hw ho, Option.bind_eq_bind,
    Option.bind_some]
  split <;> rfl

theorem compare_swap (σ : Store) (fuel : Nat) (v w : Value) :
    σ.compare fuel w v = (σ.compare fuel v w).map Ordering.swap :=
  Walk.compare_swap fuel [] w v

/-- Comparing two values the other way round reverses the order.  If there is an order, and neither
value resolves to a NaN, exactly one of less, equal and greater holds, and exchanging the values
exchanges the relations.  With a NaN, no relation holds, but it comes before every other value in
the order. -/
theorem compare_reverses_and_decides (σ : Store) (fuel : Nat) (v w : Value) :
    σ.compare fuel w v = (σ.compare fuel v w).map Ordering.swap ∧
    ∀ o, σ.compare fuel v w = some o →
      ∃ x y t, σ.resolve fuel v = some x ∧ σ.resolve fuel w = some y ∧
        σ.verdict fuel v w = some t ∧ σ.verdict fuel w v = some t.flip ∧
        (x.isNaN = false → y.isNaN = false → t = .ofOrdering o ∧ t.Total) ∧
        (x.isNaN = true ∨ y.isNaN = true → t = .none) ∧
        (x.isNaN = true → y.isNaN = true → o = .eq) ∧
        (x.isNaN = true → y.isNaN = false → o = .lt) ∧
        (x.isNaN = false → y.isNaN = true → o = .gt) := by
  refine ⟨compare_swap σ fuel v w, fun o ho => ?_⟩
  obtain ⟨m, x, y, rfl, hx, hy⟩ := Walk.resolved_of_compare ho
  have hflip : σ.compare (m + 1) w v = some o.swap := by rw [compare_swap, ho]; rfl
  have hverdict := verdict_eq hx hy ho
  have hverdict' := verdict_eq hy hx hflip
  refine ⟨x, y, _, hx, hy, hverdict, ?_, ?_, ?_, ?_, ?_, ?_⟩
  · rw [hverdict', Bool.or_comm, Verdict.ofOrdering_swap]
    split <;> rfl
  · intro hnx hny
    rw [hnx, hny]
    exact ⟨rfl, Verdict.total_ofOrdering o⟩
  · intro hnan
    rw [← Bool.or_eq_true] at hnan
    rw [if_pos hnan]
  all_goals
    intro hnx hny
    have horder := Walk.compare_nan (σ := σ) m [] hx hy (by simp [hnx, hny])
    rw [hnx, hny] at horder
    exact Option.some.inj (ho.symm.trans horder)

/-- An array with one element, which refers to the variable `s` that holds a text. -/
def numeral : Store where
  arrays := #[#[.reference (.binding ⟨⟨0⟩, []⟩ "s")]]
  scopes := #[⟨[("s", .str "2")]⟩]
  functions := #[]

/-- The array is compared with a number as the number that the text denotes, from either side. -/
theorem numeral_less : ∃ t, numeral.compare 9 (.array ⟨0⟩) (.int 10) = some .lt ∧
    numeral.verdict 9 (.array ⟨0⟩) (.int 10) = some t ∧
    numeral.verdict 9 (.int 10) (.array ⟨0⟩) = some t.flip ∧
    t = .ofOrdering .lt ∧ t.Total := by
  have horder : numeral.compare 9 (.array ⟨0⟩) (.int 10) = some .lt := by decide +kernel
  obtain ⟨x, y, t, hx, hy, ht, hflip, hdecided, -⟩ :=
    (compare_reverses_and_decides numeral 9 (.array ⟨0⟩) (.int 10)).2 .lt horder
  cases hx
  cases hy
  exact ⟨t, horder, ht, hflip, hdecided rfl rfl⟩

end Store
end Scriptlet
