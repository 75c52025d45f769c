import Mathlib.Algebra.Ring.Int.Defs
import Mathlib.Data.List.TakeWhile
import Scriptlet.Proofs.EqualInOrder
import Scriptlet.Proofs.Lexemes

/-!
# Texts that denote whole numbers

A text reads as a word iff, between blanks, it is a truth value or a sign and digits that denote a
number in the range of a word.  The digits are read up to a cap only, so that a long text costs
nothing; what is read is exact below the cap and at least the cap otherwise
(`Numeral.cappedValue_cases`), and the cap is one more than the greatest magnitude of a word.  So
the reading accepts the least word, whose magnitude is no word itself, and refuses all that comes
after it.

Which texts read as numbers is in §4.3 of the specification.
-/

namespace Scriptlet

/-! ## 1. Blanks around a text

Removing blanks on both sides leaves the part between them, and there is only one such part if it is
not blank itself. -/

namespace Text

def Blank (cs : List Char) : Prop := ∀ c ∈ cs, isBlank c = true

theorem blank_iff {cs : List Char} : Blank cs ↔ cs.all isBlank = true := List.all_eq_true.symm

theorem exists_blank_around (cs : List Char) :
    ∃ before after, cs = before ++ trim cs ++ after ∧ Blank before ∧ Blank after := by
  refine ⟨cs.takeWhile isBlank, ((cs.dropWhile isBlank).reverse.takeWhile isBlank).reverse, ?_, ?_,
    ?_⟩
  · have hback : trim cs ++ ((cs.dropWhile isBlank).reverse.takeWhile isBlank).reverse =
        cs.dropWhile isBlank := by
      rw [trim, ← List.reverse_append, List.takeWhile_append_dropWhile, List.reverse_reverse]
    rw [List.append_assoc, hback, List.takeWhile_append_dropWhile]
  · exact fun c hc => List.mem_takeWhile_imp hc
  · exact fun c hc => List.mem_takeWhile_imp (List.mem_reverse.1 hc)

theorem dropWhile_blank_append {blanks core : List Char} (hblanks : Blank blanks)
    (hcore : ∀ c ∈ core.head?, isBlank c = false) : (blanks ++ core).dropWhile isBlank = core := by
  rw [List.dropWhile_append_of_pos hblanks]
  cases core with
  | nil => rfl
  | cons c core => rw [List.dropWhile_cons_of_neg (by simp [hcore c rfl])]

/-- What stands between blanks, and is not blank itself, is left. -/
theorem trim_eq_of_blank {before core after : List Char} (hbefore : Blank before)
    (hafter : Blank after) (hne : core ≠ []) (hcore : ∀ c ∈ core, isBlank c = false) :
    trim (before ++ core ++ after) = core := by
  have hhead : ∀ c ∈ (core ++ after).head?, isBlank c = false := by
    intro c hc
    rw [List.head?_append_of_ne_nil _ hne] at hc
    exact hcore c (List.mem_of_mem_head? hc)
  have hlast : ∀ c ∈ core.reverse.head?, isBlank c = false :=
    fun c hc => hcore c (List.mem_reverse.1 (List.mem_of_mem_head? hc))
  have hafter' : Blank after.reverse := fun c hc => hafter c (List.mem_reverse.1 hc)
  rw [trim, List.append_assoc, dropWhile_blank_append hbefore hhead, List.reverse_append,
    dropWhile_blank_append hafter' hlast, List.reverse_reverse]

end Text

/-! ## 2. Signs and digits

The number that digits denote is `Nat.ofDigitChars`, which knows no bounds. -/

namespace Numeral

def Digits (ds : List Char) : Prop := ds ≠ [] ∧ ∀ d ∈ ds, d.isDigit = true

/-- Digits with an optional sign in front, and the number that they denote. -/
inductive Signed : List Char → Int → Prop
  | unsigned {ds : List Char} : Digits ds → Signed ds (Nat.ofDigitChars 10 ds 0)
  | plus {ds : List Char} : Digits ds → Signed ('+' :: ds) (Nat.ofDigitChars 10 ds 0)
  | minus {ds : List Char} : Digits ds → Signed ('-' :: ds) (-Nat.ofDigitChars 10 ds 0)

def signedValue (negative : Bool) (ds : List Char) : Int :=
  if negative then -Nat.ofDigitChars 10 ds 0 else Nat.ofDigitChars 10 ds 0

theorem splitSign_of_digits {ds : List Char} (h : Digits ds) : splitSign ds = (false, ds) := by
  cases ds with
  | nil => exact absurd rfl h.1
  | cons d ds =>
    have hdigit : d.isDigit = true := h.2 d List.mem_cons_self
    have hminus : d ≠ '-' := by
      rintro rfl
      cases hdigit
    have hplus : d ≠ '+' := by
      rintro rfl
      cases hdigit
    simp [splitSign, hminus, hplus]

/-- There is one way to read a sign and digits: a sign in front is split off. -/
theorem signed_iff {cs : List Char} {k : Int} :
    Signed cs k ↔ Digits (splitSign cs).2 ∧ k = signedValue (splitSign cs).1 (splitSign cs).2 := by
  constructor
  · intro h
    cases h with
    | unsigned hds =>
      rw [splitSign_of_digits hds]
      exact ⟨hds, rfl⟩
    | plus hds => exact ⟨hds, rfl⟩
    | minus hds => exact ⟨hds, rfl⟩
  · fun_cases splitSign cs with
    | case1 rest =>
      rintro ⟨hds, rfl⟩
      exact .minus hds
    | case2 rest =>
      rintro ⟨hds, rfl⟩
      exact .plus hds
    | case3 =>
      rintro ⟨hds, rfl⟩
      exact .unsigned hds

theorem le_ofDigitChars (ds : List Char) (n : Nat) : n ≤ Nat.ofDigitChars 10 ds n := by
  induction ds generalizing n with
  | nil => exact Nat.le_refl n
  | cons d ds ih =>
    have hnext := ih (10 * n + (d.toNat - '0'.toNat))
    rw [Nat.ofDigitChars_cons]
    omega

/-- Reading digits from a number on is exact, or both the number read and the number denoted reach
the cap. -/
theorem cappedFold_cases (cap : Nat) (ds : List Char) (n : Nat) :
    let read := ds.foldl (fun n c => if n < cap then 10 * n + digitValue c else n) n
    read = Nat.ofDigitChars 10 ds n ∨ cap ≤ read ∧ cap ≤ Nat.ofDigitChars 10 ds n := by
  induction ds generalizing n with
  | nil => exact .inl rfl
  | cons d ds ih =>
    rw [Nat.ofDigitChars_cons, List.foldl_cons]
    by_cases hn : n < cap
    · rw [if_pos hn]
      exact ih (10 * n + digitValue d)
    · -- From the cap on nothing more is read, and what is denoted only grows.
      have hread := ih n
      have hgrows := le_ofDigitChars ds n
      have hdenoted := le_ofDigitChars ds (10 * n + (d.toNat - '0'.toNat))
      rw [if_neg hn]
      omega

theorem cappedValue_cases (cap : Nat) (ds : List Char) :
    cappedValue cap ds = Nat.ofDigitChars 10 ds 0 ∨
      cap ≤ cappedValue cap ds ∧ cap ≤ Nat.ofDigitChars 10 ds 0 :=
  cappedFold_cases cap ds 0

theorem wordCap_eq : wordCap = 2 ^ 63 + 1 := by decide

theorem digits_iff {ds : List Char} : Digits ds ↔ (ds.isEmpty || !ds.all Char.isDigit) = false := by
  simp [Digits]

/-- A range check lets the words through. -/
theorem word_iff {k : Int} {n : Int64} :
    (if Int64.minValue.toInt ≤ k ∧ k ≤ Int64.maxValue.toInt then some (Int64.ofInt k)
      else none) = some n ↔ n.toInt = k := by
  have hlow := n.le_toInt
  have hhigh := n.toInt_lt
  rw [Int64.toInt_minValue, Int64.toInt_maxValue]
  constructor
  · intro h
    split at h
    · rename_i hrange
      rw [← Option.some.inj h]
      exact Int64.toInt_ofInt_of_le (by omega) (by omega)
    · cases h
  · rintro rfl
    rw [if_pos (by omega), Int64.ofInt_toInt]

/-- Text reads as a word iff it is the sign and the digits of that word. -/
theorem readInt?_eq_some_iff {cs : List Char} {n : Int64} :
    readInt? cs = some n ↔ Signed cs n.toInt := by
  rw [signed_iff, readInt?]
  generalize splitSign cs = split
  obtain ⟨negative, ds⟩ := split
  by_cases hds : Digits ds
  · have hlow := n.le_toInt
    have hhigh := n.toInt_lt
    simp only [digits_iff.1 hds, Bool.false_eq_true, if_false, word_iff, hds, true_and, signedValue]
    have hcap := wordCap_eq
    have hcases := cappedValue_cases wordCap ds
    -- Out of range stays out of range at the cap, on both sides of zero.
    cases negative with
    | false =>
      simp only [Bool.false_eq_true, if_false]
      omega
    | true =>
      simp only [if_true]
      omega
  · have hrefused := Bool.eq_true_of_not_eq_false fun h => hds (digits_iff.2 h)
    simp [hds, hrefused]

/-! ## 3. Texts

Letters, signs and digits are no blanks, so a text of a whole number is what trimming leaves of
itself. -/

/-- The texts of whole numbers: a truth value in any case of its letters, or digits with an optional
sign. -/
def Whole (cs : List Char) (k : Int) : Prop :=
  cs.map Char.toLower = "true".toList ∧ k = 1 ∨
    cs.map Char.toLower = "false".toList ∧ k = 0 ∨ Signed cs k

theorem Signed.ne_nil {cs : List Char} {k : Int} (h : Signed cs k) : cs ≠ [] := by
  cases h with
  | unsigned hds => exact hds.1
  | plus hds | minus hds => exact List.cons_ne_nil _ _

theorem Signed.sign_or_digit {cs : List Char} {k : Int} (h : Signed cs k) :
    ∀ c ∈ cs, c = '+' ∨ c = '-' ∨ c.isDigit = true := by
  cases h with
  | unsigned hds => exact fun c hc => .inr (.inr (hds.2 c hc))
  | plus hds | minus hds =>
    intro c hc
    rcases List.mem_cons.1 hc with rfl | hc
    · simp
    · exact .inr (.inr (hds.2 c hc))

theorem isAlpha_of_toLower {c : Char} (h : c.toLower.isAlpha = true) : c.isAlpha = true := by
  by_cases hupper : c.isUpper = true
  · exact Bool.or_eq_true_iff.2 (.inl hupper)
  · have hsame : c.toLower = c := dif_neg fun h => hupper (decide_eq_true h)
    rwa [hsame] at h

/-- In whatever case a word of letters is written, it has letters only. -/
theorem isAlpha_of_folded {cs : List Char} {word : String} (h : cs.map Char.toLower = word.toList)
    (hword : word.toList.all Char.isAlpha = true) : ∀ c ∈ cs, c.isAlpha = true := by
  intro c hc
  have hmem : c.toLower ∈ word.toList := h ▸ List.mem_map_of_mem hc
  exact isAlpha_of_toLower (List.all_eq_true.1 hword _ hmem)

theorem Signed.not_folded {cs : List Char} {k : Int} (h : Signed cs k) {word : String}
    (hword : word.toList.all Char.isAlpha = true) : cs.map Char.toLower ≠ word.toList := by
  intro hfolded
  -- A first character is a letter, and a sign or a digit.
  obtain ⟨c, hc⟩ := List.exists_mem_of_ne_nil cs h.ne_nil
  have halpha := isAlpha_of_folded hfolded hword c hc
  rcases h.sign_or_digit c hc with rfl | rfl | hdigit
  · cases halpha
  · cases halpha
  · have := Scan.toNat_of_isAlpha halpha
    have := Scan.toNat_of_isDigit hdigit
    omega

theorem Whole.ne_nil {cs : List Char} {k : Int} (h : Whole cs k) : cs ≠ [] := by
  rcases h with ⟨h, -⟩ | ⟨h, -⟩ | h
  · rintro rfl
    cases h
  · rintro rfl
    cases h
  · exact h.ne_nil

theorem Whole.isBlank_eq_false {cs : List Char} {k : Int} (h : Whole cs k) :
    ∀ c ∈ cs, Text.isBlank c = false := by
  intro c hc
  have hletter : c.isAlpha = true → Text.isBlank c = false :=
    fun h => Scan.isBlank_of_isAlphanum (by simp [Char.isAlphanum, h])
  rcases h with ⟨h, -⟩ | ⟨h, -⟩ | h
  · exact hletter (isAlpha_of_folded h (by decide) c hc)
  · exact hletter (isAlpha_of_folded h (by decide) c hc)
  · rcases h.sign_or_digit c hc with rfl | rfl | hdigit
    · decide
    · decide
    · exact Scan.isBlank_of_isDigit hdigit

/-- A text denotes at most one whole number. -/
theorem Whole.unique {cs : List Char} {k l : Int} (hk : Whole cs k) (hl : Whole cs l) : k = l := by
  rcases hk with ⟨hk, rfl⟩ | ⟨hk, rfl⟩ | hk <;> rcases hl with ⟨hl, rfl⟩ | ⟨hl, rfl⟩ | hl
  · rfl
  · exact absurd (hk.symm.trans hl) (by decide)
  · exact absurd hk (hl.not_folded (by decide))
  · exact absurd (hk.symm.trans hl) (by decide)
  · rfl
  · exact absurd hk (hl.not_folded (by decide))
  · exact absurd hl (hk.not_folded (by decide))
  · exact absurd hl (hk.not_folded (by decide))
  · exact (signed_iff.1 hk).2.trans (signed_iff.1 hl).2.symm

theorem Whole.iff_eq {cs : List Char} {k l : Int} (hk : Whole cs k) : Whole cs l ↔ l = k := by
  constructor
  · intro hl
    exact hl.unique hk
  · rintro rfl
    exact hk

/-- A text reads as a word iff it is a text of that word, once the blanks around it are removed. -/
theorem read?_eq_int_iff_trim {text : String} {n : Int64} :
    read? text = some (.int n) ↔ Whole (Text.trim text.toList) n.toInt := by
  have hword : ∀ m : Int64, some (Number.int m) = some (.int n) ↔ n.toInt = m.toInt := by
    intro m
    simp [Int64.toInt_inj, eq_comm]
  simp only [read?, Text.equalsFolded, beq_iff_eq, List.isEmpty_iff]
  generalize Text.trim text.toList = cs
  by_cases hempty : cs = []
  · rw [if_pos hempty]
    exact iff_of_false nofun fun h => h.ne_nil hempty
  rw [if_neg hempty]
  by_cases htrue : cs.map Char.toLower = "true".toList
  · rw [if_pos htrue, Whole.iff_eq (.inl ⟨htrue, rfl⟩)]
    exact hword 1
  by_cases hfalse : cs.map Char.toLower = "false".toList
  · rw [if_neg htrue, if_pos hfalse, Whole.iff_eq (.inr (.inl ⟨hfalse, rfl⟩))]
    exact hword 0
  rw [if_neg htrue, if_neg hfalse]
  simp only [Whole, htrue, hfalse, false_and, false_or, ← readInt?_eq_some_iff]
  cases readInt? cs with
  | some m => simp
  | none => cases readFloat? cs <;> simp

/-- A text reads as a word iff it is a text of that word between blanks. -/
theorem read?_eq_int_iff {text : String} {n : Int64} :
    read? text = some (.int n) ↔ ∃ before core after, text.toList = before ++ core ++ after ∧
      Text.Blank before ∧ Text.Blank after ∧ Whole core n.toInt := by
  rw [read?_eq_int_iff_trim]
  constructor
  · intro h
    obtain ⟨before, after, htext, hbefore, hafter⟩ := Text.exists_blank_around text.toList
    exact ⟨before, _, after, htext, hbefore, hafter, h⟩
  · rintro ⟨before, core, after, htext, hbefore, hafter, h⟩
    rwa [htext, Text.trim_eq_of_blank hbefore hafter h.ne_nil h.isBlank_eq_false]

/-! ## 4. The text of a word

Words are written in decimal, with a minus sign in front of negative ones. -/

theorem digits_toDigits (m : Nat) : Digits (Nat.toDigits 10 m) :=
  ⟨Nat.toDigits_ne_nil, fun _ hd => Nat.isDigit_of_mem_toDigits (by decide) (by decide) hd⟩

theorem signed_toString (k : Int) : Signed (toString k).toList k := by
  cases k with
  | ofNat m =>
    have htext : (toString (Int.ofNat m)).toList = Nat.toDigits 10 m := Nat.toList_repr
    have h := Signed.unsigned (digits_toDigits m)
    rw [Nat.ofDigitChars_toDigits (by decide) (by decide)] at h
    rw [htext]
    exact h
  | negSucc m =>
    have htext : (toString (Int.negSucc m)).toList = '-' :: Nat.toDigits 10 (m + 1) := by
      rw [← Nat.toList_repr]
      exact String.toList_append
    have h := Signed.minus (digits_toDigits (m + 1))
    rw [Nat.ofDigitChars_toDigits (by decide) (by decide)] at h
    rw [htext]
    exact h

/-- The text of a word reads as the word. -/
theorem read?_toString (n : Int64) : read? (toString n.toInt) = some (.int n) :=
  read?_eq_int_iff.2 ⟨[], _, [], by simp, Text.blank_iff.2 rfl, Text.blank_iff.2 rfl,
    .inr (.inr (signed_toString n.toInt))⟩

end Numeral

namespace Store

variable {σ : Store} {fuel : Nat}

/-- A word equals every text that reads as it. -/
theorem looseEq_int_str {n : Int64} {text : String} (h : Numeral.read? text = some (.int n)) :
    σ.looseEq (fuel + 1) (.int n) (.str text) = some true := by
  have horder : σ.compare (fuel + 1) (.int n) (.str text) = some .eq := by
    have hnumbers : Ord.compare n.toInt n.toInt = .eq := Std.ReflCmp.compare_self
    have htext : Walk.compareText σ text (.int n) = .eq := by
      rw [Walk.compareText, h]
      exact hnumbers
    rw [compare, Walk.compare_scalars rfl rfl rfl rfl]
    exact congrArg (fun o => some o.swap) htext
  exact looseEq_eq rfl rfl horder

end Store

/-- Text reads as a word exactly if, between blanks, it is `true` or `false` in any case of the
letters, or an optional sign and digits that denote the word; digits that denote a number out of
range never read as a word.  So the text of every word reads as that word, and the word equals its
text without being identical to it. -/
theorem whole_numerals_are_read_exactly (text : String) (n : Int64) :
    (Numeral.read? text = some (.int n) ↔
      ∃ before core after, text.toList = before ++ core ++ after ∧
        Text.Blank before ∧ Text.Blank after ∧ Numeral.Whole core n.toInt) ∧
    (∀ before core after k, text.toList = before ++ core ++ after →
      Text.Blank before → Text.Blank after → Numeral.Signed core k →
      k < -2 ^ 63 ∨ 2 ^ 63 ≤ k → ∀ m, Numeral.read? text ≠ some (.int m)) ∧
    ∀ (σ : Store) (fuel : Nat), ∃ shown, σ.display (fuel + 1) (.int n) = some shown ∧
      Numeral.read? shown = some (.int n) ∧
      σ.binary (fuel + 1) (.relation .eq) (.int n) (.str shown) = some (.bool true) ∧
      σ.binary (fuel + 1) (.relation .identical) (.int n) (.str shown) = some (.bool false) := by
  refine ⟨Numeral.read?_eq_int_iff, ?_, ?_⟩
  · intro before core after k htext hbefore hafter hsigned hrange m hread
    have hcore : Numeral.Whole core k := .inr (.inr hsigned)
    rw [Numeral.read?_eq_int_iff_trim, htext,
      Text.trim_eq_of_blank hbefore hafter hcore.ne_nil hcore.isBlank_eq_false,
      hcore.iff_eq] at hread
    have hlow := m.le_toInt
    have hhigh := m.toInt_lt
    omega
  · intro σ fuel
    have hread := Numeral.read?_toString n
    exact ⟨toString n.toInt, rfl, hread, Store.binary_relation (Store.looseEq_int_str hread),
      Store.binary_relation rfl⟩

/-- The least word between blanks and with a zero in front is read; its digits alone are out of
range. -/
theorem least_word_is_read :
    Numeral.read? " -09223372036854775808\n" = some (.int Int64.minValue) ∧
    ∀ m, Numeral.read? "9223372036854775808" ≠ some (.int m) := by
  have hleast : Numeral.Signed "-09223372036854775808".toList (-9223372036854775808) :=
    .minus (Numeral.digits_iff.2 rfl)
  have hdigits : Numeral.Signed "9223372036854775808".toList 9223372036854775808 :=
    .unsigned (Numeral.digits_iff.2 rfl)
  have hempty : Text.Blank [] := Text.blank_iff.2 rfl
  constructor
  · apply (whole_numerals_are_read_exactly _ _).1.2
    exact ⟨[' '], "-09223372036854775808".toList, ['\n'], rfl, Text.blank_iff.2 rfl,
      Text.blank_iff.2 rfl, .inr (.inr hleast)⟩
  · intro m
    exact (whole_numerals_are_read_exactly _ 0).2.1 [] _ [] _ rfl hempty hempty hdigits
      (by decide) m

end Scriptlet
