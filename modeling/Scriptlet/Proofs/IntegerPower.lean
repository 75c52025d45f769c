import Mathlib.Algebra.Order.Ring.Abs
import Mathlib.Algebra.Order.Ring.Int
import Scriptlet.Proofs.TextsOfArrays
import Scriptlet.Proofs.WholeNumerals
import Scriptlet.Proofs.WordDivision

/-!
# Powers of words

A power is computed by squaring, and is given up as soon as a product is no word.  What is computed
is exact (`Number.toInt_of_mulPow?`).  And no product is given up too early: every square that is
formed is a factor of the power, and so is the product that is collected; what is left to multiply
is a power of a square, hence positive.  So both are at most as far from zero as the power, and the
collected product has its sign.  The magnitude `2^63` is allowed for negative words only, but no
square is `2^63` (`Word.square_ne`).  The power may also be zero, but then its base is.

The function is `pow` of §10.6 of the specification.
-/

namespace Scriptlet

/-! ## 1. Integers that are words -/

namespace Word

def Fits (k : Int) : Prop := -2 ^ 63 ≤ k ∧ k < 2 ^ 63

theorem fits_toInt (n : Int64) : Fits n.toInt := ⟨n.le_toInt, n.toInt_lt⟩

/-- A computation that gives exactly the word that an integer is gives one if it is a word. -/
theorem exists_of_fits {o : Option Int64} {k : Int} (ho : ∀ n, o = some n ↔ n.toInt = k)
    (h : Fits k) :
    ∃ n, o = some n ∧ n.toInt = k := by
  have hword := Int64.toInt_ofInt_of_le h.1 h.2
  exact ⟨_, (ho _).2 hword, hword⟩

/-- Two to an odd power is no square; here by the two whole numbers around its root. -/
theorem square_ne (b : Int) : b * b ≠ 2 ^ 63 := by
  intro h
  have habs : b.natAbs * b.natAbs = 2 ^ 63 := by
    rw [← Int.natAbs_mul, h]
    rfl
  rcases Nat.lt_or_ge 3037000499 b.natAbs with hlt | hle
  · have hlarge := Nat.mul_le_mul (Nat.succ_le_of_lt hlt) (Nat.succ_le_of_lt hlt)
    omega
  · have hsmall := Nat.mul_le_mul hle hle
    omega

/-- A factor is a word if the product by something positive is. -/
theorem fits_of_mul {u s : Int} (hs : 1 ≤ s) (h : Fits (u * s)) : Fits u := by
  obtain ⟨hlow, hhigh⟩ := h
  -- On either side of zero, the factor lies between zero and the product.
  rcases Int.le_total 0 u with hu | hu
  · have hle : u ≤ u * s := le_mul_of_one_le_right hu hs
    constructor <;> omega
  · have hge : u * s ≤ u := mul_le_of_one_le_right hu hs
    constructor <;> omega

/-- A square is a word if a multiple of it is, other than zero. -/
theorem fits_square_of_mul {u b s : Int} (hu : u ≠ 0) (hs : 1 ≤ s) (h : Fits (u * (b * b * s))) :
    Fits (b * b) := by
  obtain ⟨hlow, hhigh⟩ := h
  have hsquare : 0 ≤ b * b := mul_self_nonneg b
  have hfactor : 0 ≤ b * b * s := mul_nonneg hsquare (by omega)
  have hle : b * b ≤ 2 ^ 63 := calc
    b * b ≤ b * b * s := le_mul_of_one_le_right hsquare hs
    _ ≤ |u| * (b * b * s) := le_mul_of_one_le_left hfactor (Int.one_le_abs hu)
    _ = |u * (b * b * s)| := by rw [abs_mul, abs_of_nonneg hfactor]
    _ ≤ 2 ^ 63 := abs_le.2 ⟨by omega, by omega⟩
  have hne := square_ne b
  constructor <;> omega

/-- Squaring the base halves the exponent, and the last binary digit goes to the other factor. -/
theorem mul_pow_halves (u b : Int) (e : Nat) : u * b ^ e = u * b ^ (e % 2) * (b * b) ^ (e / 2) := by
  have hdigits : e = e % 2 + 2 * (e / 2) := (Nat.mod_add_div e 2).symm
  calc u * b ^ e = u * b ^ (e % 2 + 2 * (e / 2)) := by rw [← hdigits]
    _ = u * b ^ (e % 2) * (b * b) ^ (e / 2) := by rw [pow_add, pow_mul, pow_two, mul_assoc]

/-- Where a power is a word, so are the product that is collected on the way to it and the next
square. -/
theorem fits_factors {a b : Int} {e : Nat} (ha : Fits a) (hzero : a ≠ 0 ∨ b = 0) (he : 1 < e)
    (h : Fits (a * b ^ e)) :
    Fits (a * b ^ (e % 2)) ∧ Fits (b * b) := by
  by_cases hb : b = 0
  · have hsquare : Fits (b * b) := by
      rw [hb, mul_zero]
      exact fits_toInt 0
    refine ⟨?_, hsquare⟩
    rcases Nat.mod_two_eq_zero_or_one e with hdigit | hdigit
    · rwa [hdigit, pow_zero, mul_one]
    · rw [hdigit, pow_one, hb, mul_zero]
      exact fits_toInt 0
  · have hne : a * b ^ (e % 2) ≠ 0 := mul_ne_zero (hzero.resolve_right hb) (pow_ne_zero _ hb)
    have hsquare : 1 ≤ b * b := mul_self_pos.2 hb
    -- The square is a factor of what is left to multiply.
    have hrest : (b * b) ^ (e / 2) = b * b * (b * b) ^ (e / 2 - 1) := by
      rw [← pow_succ', Nat.sub_add_cancel (by omega)]
    rw [mul_pow_halves] at h
    constructor
    · exact fits_of_mul (one_le_pow₀ hsquare) h
    · rw [hrest] at h
      exact fits_square_of_mul hne (one_le_pow₀ hsquare) h

end Word

/-! ## 2. Products and powers -/

namespace Number

theorem mulInt?_eq_some_iff {m n k : Int64} : mulInt? m n = some k ↔ k.toInt = m.toInt * n.toInt :=
  Numeral.word_iff

/-- The last binary digit of the exponent decides whether the base is multiplied in. -/
theorem collect?_eq_some_iff {acc base k : Int64} {e : Nat} :
    collect? acc base e = some k ↔ k.toInt = acc.toInt * base.toInt ^ (e % 2) := by
  unfold collect?
  rcases Nat.mod_two_eq_zero_or_one e with he | he
  · rw [he, if_neg zero_ne_one, pow_zero, mul_one, Option.some.injEq, Int64.toInt_inj]
    exact eq_comm
  · rw [he, if_pos rfl, pow_one]
    exact mulInt?_eq_some_iff

/-- What is computed is exact. -/
theorem toInt_of_mulPow? {acc base k : Int64} {e : Nat} (h : mulPow? acc base e = some k) :
    k.toInt = acc.toInt * base.toInt ^ e := by
  -- The exponent is halved in every step, and the product of both factors stays the same.
  induction e using Nat.strongRecOn generalizing acc base with
  | ind e ih =>
    rw [mulPow?] at h
    split at h
    · rename_i he
      have hcollected := collect?_eq_some_iff.1 h
      rwa [Nat.mod_eq_of_lt (by omega)] at hcollected
    · rename_i he
      simp only [Option.bind_eq_bind, Option.bind_eq_some_iff] at h
      obtain ⟨acc', hacc, base', hbase, h⟩ := h
      have hrest := ih (e / 2) (by omega) h
      rw [Word.mul_pow_halves, ← collect?_eq_some_iff.1 hacc, ← mulInt?_eq_some_iff.1 hbase]
      exact hrest

/-- No product is given up too early. -/
theorem exists_mulPow? {acc base : Int64} {e : Nat} (hzero : acc.toInt ≠ 0 ∨ base.toInt = 0)
    (h : Word.Fits (acc.toInt * base.toInt ^ e)) : ∃ k, mulPow? acc base e = some k := by
  induction e using Nat.strongRecOn generalizing acc base with
  | ind e ih =>
    rw [mulPow?]
    split
    · rename_i he
      rw [← Nat.mod_eq_of_lt (show e < 2 by omega)] at h
      obtain ⟨k, hk, -⟩ := Word.exists_of_fits (fun _ => collect?_eq_some_iff) h
      exact ⟨k, hk⟩
    · rename_i he
      obtain ⟨hcollected, hsquared⟩ := Word.fits_factors (Word.fits_toInt acc) hzero (by omega) h
      obtain ⟨acc', hacc, hacc'⟩ := Word.exists_of_fits (fun _ => collect?_eq_some_iff) hcollected
      obtain ⟨base', hbase, hbase'⟩ := Word.exists_of_fits (fun _ => mulInt?_eq_some_iff) hsquared
      have hrest : Word.Fits (acc'.toInt * base'.toInt ^ (e / 2)) := by
        rwa [hacc', hbase', ← Word.mul_pow_halves]
      -- A zero comes from the base only, whose squares then are zero and never too large.
      have hzero' : acc'.toInt ≠ 0 ∨ base'.toInt = 0 := by
        rw [hacc', hbase']
        by_cases hb : base.toInt = 0
        · exact .inr (by rw [hb, mul_zero])
        · exact .inl (mul_ne_zero (hzero.resolve_right hb) (pow_ne_zero _ hb))
      obtain ⟨k, hk⟩ := ih (e / 2) (by omega) hzero' hrest
      refine ⟨k, ?_⟩
      simp only [hacc, hbase, Option.bind_eq_bind, Option.bind_some]
      exact hk

/-- The power of a word is computed exactly where it is a word. -/
theorem mulPow?_one_eq_some_iff {base k : Int64} {e : Nat} :
    mulPow? 1 base e = some k ↔ k.toInt = base.toInt ^ e := by
  have hone : (1 : Int64).toInt * base.toInt ^ e = base.toInt ^ e := one_mul _
  constructor
  · intro h
    exact (toInt_of_mulPow? h).trans hone
  · intro h
    have hfits : Word.Fits ((1 : Int64).toInt * base.toInt ^ e) := by
      rw [hone, ← h]
      exact Word.fits_toInt k
    obtain ⟨k', hk'⟩ := exists_mulPow? (.inl (by decide)) hfits
    have hsame : k' = k := Int64.toInt_inj.1 ((toInt_of_mulPow? hk').trans (hone.trans h.symm))
    rwa [hsame] at hk'

/-- In this range of exponents the power is left to squaring. -/
theorem powInt?_of_range (base : Int64) {exponent : Int64} (hlow : 0 ≤ exponent.toInt)
    (hhigh : exponent.toInt < 2 ^ 32) :
    powInt? base exponent = mulPow? 1 base exponent.toInt.toNat := by
  have hsize : (UInt32.size : Int) = 2 ^ 32 := rfl
  exact if_neg (by omega)

end Number

/-! ## 3. The function -/

namespace Eval

variable {σ : Store} {f : FunctionId} {fuel : Nat}

theorem numberArgument_int {args : List Value} {i : Nat} {n : Int64}
    (h : args[i]?.getD .invalid = .int n) :
    Native.numberArgument fuel args i σ = .done (.int n) σ :=
  (bind_of_done (argument_of_plain h rfl)).trans (look_of_some rfl)

/-- What the function `pow` gives for two words. -/
theorem invoke_pow [Host] (hf : Namespace.math.export? "pow" = some (.function (σ.function f)))
    (b e : Int64) :
    invoke (fuel + 1) f [.positional (.int b), .positional (.int e)] σ =
      .done (.ofNumber (Number.pow (.int b) (.int e))) σ := by
  injection hf with hf
  injection hf with hf
  rw [invoke_native hf.symm]
  let args : List Value := [.int b, .int e]
  refine (bind_of_done (m := Native.numberArgument fuel args 0) (numberArgument_int rfl)).trans ?_
  exact bind_of_done (m := Native.numberArgument fuel args 1) (numberArgument_int rfl)

end Eval

/-- For an exponent from `0` to `2^32 - 1`, `pow` gives the exact power of two words where that is a
word, and a float elsewhere.  In the first case none of the products on the way is given up. -/
theorem integer_power_is_exact [Host] (σ : Store) (f : FunctionId)
    (hf : Namespace.math.export? "pow" = some (.function (σ.function f))) (fuel : Nat) (b e : Int64)
    (hlow : 0 ≤ e.toInt) (hhigh : e.toInt < 2 ^ 32) :
    (-2 ^ 63 ≤ b.toInt ^ e.toInt.toNat ∧ b.toInt ^ e.toInt.toNat < 2 ^ 63 →
      ∃ k : Int64, k.toInt = b.toInt ^ e.toInt.toNat ∧ Number.mulPow? 1 b e.toInt.toNat = some k ∧
        Eval.invoke (fuel + 1) f [.positional (.int b), .positional (.int e)] σ =
          .done (.int k) σ) ∧
    (¬ (-2 ^ 63 ≤ b.toInt ^ e.toInt.toNat ∧ b.toInt ^ e.toInt.toNat < 2 ^ 63) →
      ∃ z : Float, Eval.invoke (fuel + 1) f [.positional (.int b), .positional (.int e)] σ =
        .done (.float z) σ) := by
  have hpow := Number.powInt?_of_range b hlow hhigh
  rw [Eval.invoke_pow hf, Number.pow]
  constructor
  · intro hfits
    obtain ⟨k, hexact, hk⟩ := Word.exists_of_fits (fun _ => Number.mulPow?_one_eq_some_iff) hfits
    refine ⟨k, hk, hexact, ?_⟩
    rw [Number.arith_of_some (hpow.trans hexact)]
    rfl
  · intro hfits
    have hnone : Number.mulPow? 1 b e.toInt.toNat = none := by
      apply Option.eq_none_iff_forall_ne_some.2
      intro k hk
      apply hfits
      rw [← Number.mulPow?_one_eq_some_iff.1 hk]
      exact Word.fits_toInt k
    rw [Number.arith_of_none (hpow.trans hnone)]
    exact ⟨_, rfl⟩

def powers : Store where
  arrays := #[]
  scopes := #[]
  functions := #[⟨"pow", [⟨"base", none⟩, ⟨"exp", none⟩], .native .pow false⟩]

/-- The least word is a power of `-2`; the same power of `2` is no word. -/
theorem powers_of_two :
    (∃ k : Int64, k = Int64.minValue ∧
      Eval.invoke 1 ⟨0⟩ [.positional (.int (-2)), .positional (.int 63)] powers =
        .done (.int k) powers) ∧
    ∃ z : Float, Eval.invoke 1 ⟨0⟩ [.positional (.int 2), .positional (.int 63)] powers =
      .done (.float z) powers := by
  have hf : Namespace.math.export? "pow" = some (.function (powers.function ⟨0⟩)) := rfl
  constructor
  · obtain ⟨k, hk, -, hresult⟩ :=
      (integer_power_is_exact powers ⟨0⟩ hf 0 (-2) 63 (by decide) (by decide)).1 (by decide)
    exact ⟨k, Int64.toInt_inj.1 (hk.trans (by decide)), hresult⟩
  · exact (integer_power_is_exact powers ⟨0⟩ hf 0 2 63 (by decide) (by decide)).2 (by decide)

end Scriptlet
