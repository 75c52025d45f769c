import Mathlib.Data.Int.ModEq
import Scriptlet.Proofs.EqualInOrder

/-!
# Quotients and remainders of words

Words are divided with truncation, and the remainder has the sign of the dividend.  The remainder
always is a word.  The quotient is one but for the least word divided by `-1`, where it wraps;
still, quotient times divisor plus remainder is the dividend in wrapping arithmetic
(`Word.div_mul_add_mod`).  An operand may be given in many ways: as a truth value, a text, a
reference, or an array that is read against a number.  Against the quotient it stands for the same
number as before (`Store.operand_against_number`), so the law also holds of what the operators of
the language give.

Division is in §4.3 of the specification, and overflow in §10.7.
-/

namespace Scriptlet

/-! ## 1. Words -/

namespace Word

/-- The one quotient that is no word. -/
def Overflows (x y : Int64) : Prop := x = Int64.minValue ∧ y = -1

theorem toInt_div {x y : Int64} (h : ¬ Overflows x y) : (x / y).toInt = x.toInt.tdiv y.toInt := by
  by_cases hx : x = Int64.minValue
  · exact Int64.toInt_div_of_ne_right x y fun hy => h ⟨hx, hy⟩
  · exact Int64.toInt_div_of_ne_left x y hx

theorem div_mod_of_overflows {x y : Int64} (h : Overflows x y) :
    x / y = Int64.minValue ∧ x % y = 0 := by
  obtain ⟨rfl, rfl⟩ := h
  decide

theorem div_mul_add_mod (x y : Int64) : x / y * y + x % y = x := by
  apply Int64.toInt_inj.1
  rw [Int64.toInt_add, Int64.toInt_mul, Int64.toInt_div, Int64.toInt_mod]
  -- Wrapping once at the end is enough, so it makes no difference that the quotient may wrap.
  calc (((x.toInt.tdiv y.toInt).bmod (2 ^ 64) * y.toInt).bmod (2 ^ 64)
          + x.toInt.tmod y.toInt).bmod (2 ^ 64)
      = (x.toInt.tdiv y.toInt * y.toInt + x.toInt.tmod y.toInt).bmod (2 ^ 64) := by
        rw [Int.bmod_mul_bmod, Int.bmod_add_bmod]
    _ = x.toInt.bmod (2 ^ 64) := by rw [Int.tdiv_mul_add_tmod]
    _ = x.toInt := x.toInt_bmod

/-- Equations between sums of products of words hold of the integers up to a multiple of `2^64`. -/
theorem modEq_of_mul_add_eq {q y r x : Int64} (h : q * y + r = x) :
    x.toInt ≡ q.toInt * y.toInt + r.toInt [ZMOD 2 ^ 64] := by
  rw [← h, Int64.toInt_add, Int64.toInt_mul, Int.bmod_add_bmod]
  exact Int.bmod_emod

theorem abs_mod_lt (x : Int64) {y : Int64} (hy : y ≠ 0) : |(x % y).toInt| < |y.toInt| := by
  have hne : y.toInt ≠ 0 := fun h => hy (Int64.toInt_inj.1 h)
  have hlt : x.toInt.natAbs % y.toInt.natAbs < y.toInt.natAbs := Nat.mod_lt _ (Int.natAbs_pos.2 hne)
  rw [← Int.natAbs_tmod, ← Int64.toInt_mod] at hlt
  rw [Int.abs_eq_natAbs, Int.abs_eq_natAbs]
  exact Int.ofNat_lt.2 hlt

/-- A remainder that is not zero has the sign of the dividend. -/
theorem sign_mod (x y : Int64) : x % y = 0 ∨ (x % y).toInt.sign = x.toInt.sign := by
  have hsign := Int.sign_tmod x.toInt y.toInt
  rw [← Int64.toInt_mod] at hsign
  split at hsign
  · exact .inl (Int64.toInt_inj.1 (Int.sign_eq_zero_iff_zero.1 hsign))
  · exact .inr hsign

end Word

/-! ## 2. Operands

What an operand stands for may depend on the other operand only if it is an array. -/

namespace Number

variable {ofInts : Int64 → Int64 → Option Int64} {m n k : Int64}

theorem arith_of_some (h : ofInts m n = some k) (ofFloats : Float → Float → Float) :
    arith ofInts ofFloats (.int m) (.int n) = .int k := by
  simp only [arith, h]

theorem arith_of_none (h : ofInts m n = none) (ofFloats : Float → Float → Float) :
    arith ofInts ofFloats (.int m) (.int n) =
      .float (ofFloats (int m).toFloat (int n).toFloat) := by
  simp only [arith, h]

end Number

namespace Store

variable {σ : Store} {fuel : Nat} {a b v : Value} {x y : Int64}

/-- What stands for a word against one value stands for it against every number. -/
theorem operand_against_number (h : σ.operand fuel b a = some (.int y)) (hv : v.isNumeric = true) :
    σ.operand fuel b v = some (.int y) := by
  have hresolve : σ.resolve fuel v = some v := Walk.resolve_numeric hv
  simp only [operand, Option.bind_eq_bind, Option.bind_eq_some_iff] at h
  obtain ⟨w, hw, u, hu, h⟩ := h
  simp only [operand, hw, hresolve, Option.bind_eq_bind, Option.bind_some]
  cases w with
  | array id =>
    have hread : (if u.isNumeric then σ.toNumber fuel (.array id)
        else some (.float Binary64.nan)) = some (.int y) := h
    split at hread
    · simpa only [hv, if_true] using hread
    · cases hread
  | _ => exact h

theorem exists_resolve_of_operand {m : Number} (h : σ.operand fuel b a = some m) :
    ∃ w, σ.resolve fuel b = some w := by
  simp only [operand, Option.bind_eq_bind, Option.bind_eq_some_iff] at h
  obtain ⟨w, hw, -⟩ := h
  exact ⟨w, hw⟩

theorem numeric_of_operands {m n : Number} (ha : σ.operand fuel a b = some m)
    (hb : σ.operand fuel b a = some n) (op : Number → Number → Number) :
    σ.numeric fuel op a b = some (.ofNumber (op m n)) := by
  simp only [numeric, ha, hb, Option.bind_eq_bind, Option.bind_some]
  rfl

/-- A word stands for itself against all that can be followed to a value. -/
theorem operand_int (n : Int64) {w : Value} (h : σ.resolve fuel b = some w) :
    σ.operand fuel (.int n) b = some (.int n) := by
  have hself : σ.resolve fuel (.int n) = some (.int n) := rfl
  simp only [operand, hself, h, Option.bind_eq_bind, Option.bind_some]
  rfl

/-! ## 3. The law

The quotient is a word, so `*` gives a word and `+` adds where it might have joined texts. -/

/-- The quotient of two words, times the divisor, plus the remainder is the dividend, by the
operators of the language and however the operands are given.  The remainder is smaller than the
divisor, and zero or of the sign of the dividend; the quotient is the exact one without its
fraction, unless that is no word.  Division by zero gives floats. -/
theorem quotient_and_remainder_recombine (σ : Store) (fuel : Nat) (a b : Value) (x y : Int64)
    (ha : σ.operand fuel a b = some (.int x)) (hb : σ.operand fuel b a = some (.int y)) :
    (y ≠ 0 → ∃ q r : Int64,
      σ.binary fuel (.arith .div) a b = some (.int q) ∧
      σ.binary fuel (.arith .mod) a b = some (.int r) ∧
      x.toInt ≡ q.toInt * y.toInt + r.toInt [ZMOD 2 ^ 64] ∧
      |r.toInt| < |y.toInt| ∧ (r = 0 ∨ r.toInt.sign = x.toInt.sign) ∧
      (x = Int64.minValue ∧ y = -1 → q = Int64.minValue ∧ r = 0) ∧
      (¬ (x = Int64.minValue ∧ y = -1) → q.toInt = x.toInt.tdiv y.toInt) ∧
      ∃ p, σ.binary fuel (.arith .mul) (.int q) b = some p ∧
        σ.binary fuel (.arith .add) p (.int r) = some (.int x)) ∧
    (y = 0 → ∃ u v : Float,
      σ.binary fuel (.arith .div) a b = some (.float u) ∧
      σ.binary fuel (.arith .mod) a b = some (.float v)) := by
  have hdiv := numeric_of_operands ha hb Number.div
  have hmod := numeric_of_operands ha hb Number.mod
  constructor
  · intro hy
    rw [Number.div, Number.arith_of_some (if_neg hy)] at hdiv
    rw [Number.mod, Number.arith_of_some (if_neg hy)] at hmod
    refine ⟨x / y, x % y, hdiv, hmod, Word.modEq_of_mul_add_eq (Word.div_mul_add_mod x y),
      Word.abs_mod_lt x hy, Word.sign_mod x y, Word.div_mod_of_overflows, Word.toInt_div,
      .int (x / y * y), ?_, ?_⟩
    · obtain ⟨w, hw⟩ := exists_resolve_of_operand hb
      exact numeric_of_operands (operand_int (x / y) hw) (operand_against_number hb rfl) Number.mul
    · exact congrArg (fun k => some (Value.int k)) (Word.div_mul_add_mod x y)
  · intro hy
    rw [Number.div, Number.arith_of_none (if_pos hy)] at hdiv
    rw [Number.mod, Number.arith_of_none (if_pos hy)] at hmod
    exact ⟨_, _, hdiv, hmod⟩

def single : Store where
  arrays := #[#[.str " -1"]]
  scopes := #[]
  functions := #[]

/-- The least word divided by an array that reads as `-1`. -/
theorem single_recombines :
    single.operand 3 (.int Int64.minValue) (.array ⟨0⟩) = some (.int Int64.minValue) ∧
    single.operand 3 (.array ⟨0⟩) (.int Int64.minValue) = some (.int (-1)) ∧
    ∃ q r : Int64,
      single.binary 3 (.arith .div) (.int Int64.minValue) (.array ⟨0⟩) = some (.int q) ∧
      single.binary 3 (.arith .mod) (.int Int64.minValue) (.array ⟨0⟩) = some (.int r) ∧
      q = Int64.minValue ∧ r = 0 ∧
      ∃ p, single.binary 3 (.arith .mul) (.int q) (.array ⟨0⟩) = some p ∧
        single.binary 3 (.arith .add) p (.int r) = some (.int Int64.minValue) := by
  have ha : single.operand 3 (.int Int64.minValue) (.array ⟨0⟩) = some (.int Int64.minValue) := rfl
  have hb : single.operand 3 (.array ⟨0⟩) (.int Int64.minValue) = some (.int (-1)) := by
    with_unfolding_all rfl
  obtain ⟨q, r, hdiv, hmod, -, -, -, hexception, -, hback⟩ :=
    (quotient_and_remainder_recombine single 3 _ _ _ _ ha hb).1 (by decide)
  obtain ⟨hq, hr⟩ := hexception ⟨rfl, rfl⟩
  exact ⟨ha, hb, q, r, hdiv, hmod, hq, hr, hback⟩

end Store
end Scriptlet
