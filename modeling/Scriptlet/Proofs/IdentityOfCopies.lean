import Scriptlet.Proofs.CopyIsomorphism
import Scriptlet.Proofs.GroundedReadings
import Scriptlet.Proofs.ReadFrame

/-!
# Identity with a deep copy

A copy unfolds as its original does, and what was there before unfolds as it did, so identity with a
copy should be identity with the original.  It is, but for NaN.  An array counts as identical to
itself without a look at its elements, and a NaN among them would have been identical to nothing.
Two values that share no array have all their elements compared (`Store.nanFree_of_identical`), and
a copy shares none with anything that is older.

The specification has a copy "deep" (§10.6) and NaN identical to nothing (§4.3).  The two meet here:
an array that holds NaN is identical to itself, and not to its copy.
-/

namespace Scriptlet

/-! ## 1. NaN in unfoldings -/

/-- The key by which floats are ordered tells the magnitude, so it tells the NaNs. -/
theorem Binary64.isNaN_of_orderKey {x y : Float} (h : Binary64.orderKey x = Binary64.orderKey y) :
    Binary64.isNaN x = Binary64.isNaN y := by
  have hmagnitude : Binary64.magnitudeBits x = Binary64.magnitudeBits y := by
    unfold Binary64.orderKey at h
    split at h <;> split at h <;> omega
  rw [Binary64.isNaN, hmagnitude, Binary64.isNaN]

/-- The walk accepts nothing whose value is NaN. -/
theorem Walk.isNaN_of_identical {σ : Store} {slot : Reader} {n : Nat} {pairs : OpenPairs}
    {l r y : Value} (h : identical σ slot n pairs l r = some true) (hy : resolve slot r = some y) :
    y.isNaN = false := by
  obtain ⟨m, x, y', rfl, hx, hy'⟩ := resolved_of_identical h
  cases hy.symm.trans hy'
  by_cases hboth : ∃ a b, x = .array a ∧ y = .array b
  · obtain ⟨a, b, rfl, rfl⟩ := hboth
    rfl
  · obtain ⟨t, ht, hiff⟩ := identical_plain m pairs hx hy fun a b ha hb => hboth ⟨a, b, ha, hb⟩
    cases h.symm.trans ht
    exact (hiff.1 rfl).2.2

namespace Store

variable {σ τ : Store}

theorem Alike.isNaN {x y : Value} (h : σ.Alike x y) : x.isNaN = y.isNaN := by
  cases x with
  | float a =>
    cases y with
    | float b => exact Binary64.isNaN_of_orderKey h
    | _ => cases h
  | _ =>
    cases y with
    | float b => cases h
    | _ => rfl

/-- Alike values are NaN together. -/
theorem SameUnfolding.nanFree {v w : Value} (h : σ.SameUnfolding v w) (hv : σ.NaNFree v) :
    σ.NaNFree w := by
  intro path y hy
  obtain ⟨x, hx, halike⟩ := (h path).2 y hy
  rw [← halike.isNaN]
  exact hv path x hx

/-! ## 2. Values that share no array

The walk accepts an array against itself without looking at its elements, so only values that share
no array are known to hold no NaN if they are identical. -/

/-- No NaN is reached on paths up to a length. -/
def NaNFreeWithin (σ : Store) (k : Nat) (v : Value) : Prop :=
  ∀ path : List Nat, path.length ≤ k → ∀ x, σ.Unfolds v path x → x.isNaN = false

theorem NaNFreeWithin.mono {k m : Nat} {v : Value} (h : σ.NaNFreeWithin m v) (hkm : k ≤ m) :
    σ.NaNFreeWithin k v :=
  fun path hpath => h path (Nat.le_trans hpath hkm)

theorem NaNFreeWithin.congr {k : Nat} {v w u : Value} (h : σ.NaNFreeWithin k v)
    (hv : σ.ResolvesTo v u) (hw : σ.ResolvesTo w u) : σ.NaNFreeWithin k w :=
  fun path hpath x hx => h path hpath x (hx.congr hw hv)

/-- Two values lead to no array in common. -/
def Apart (σ : Store) (v w : Value) : Prop := ∀ a, σ.Leads v a → ¬ σ.Leads w a

/-- Elements lead to fewer arrays than the array that they are in. -/
theorem Apart.item {v w x y : Value} {a b : ArrayId} {i : Nat} (h : σ.Apart v w)
    (hv : σ.ResolvesTo v (.array a)) (hw : σ.ResolvesTo w (.array b))
    (hx : (σ.items a)[i]? = some x) (hy : (σ.items b)[i]? = some y) : σ.Apart x y :=
  fun c hc hc' => h c (.item hv (Array.mem_of_getElem? hx) hc)
    (.item hw (Array.mem_of_getElem? hy) hc')

theorem nanFreeWithin_of_plain {k : Nat} {v u : Value} (hv : σ.ResolvesTo v u)
    (hplain : ∀ a, u ≠ .array a) (hu : u.isNaN = false) : σ.NaNFreeWithin k v := by
  intro path _ x hx
  cases hx with
  | here hx =>
    cases hv.unique hx
    exact hu
  | item ha _ _ => exact absurd (hv.unique ha) (hplain _)

theorem nanFreeWithin_zero_of_array {v : Value} {a : ArrayId} (hv : σ.ResolvesTo v (.array a)) :
    σ.NaNFreeWithin 0 v := by
  intro path hpath x hx
  cases hx with
  | here hx =>
    cases hv.unique hx
    rfl
  | item _ _ _ => cases hpath

/-- An array is one step away from its elements. -/
theorem nanFreeWithin_succ_of_array {k : Nat} {v : Value} {a : ArrayId}
    (hv : σ.ResolvesTo v (.array a))
    (hitems : ∀ (i : Nat) x, (σ.items a)[i]? = some x → σ.NaNFreeWithin k x) :
    σ.NaNFreeWithin (k + 1) v := by
  intro path hpath x hx
  cases hx with
  | here hx =>
    cases hv.unique hx
    rfl
  | @item _ u _ _ i path ha hu hx =>
    cases hv.unique ha
    exact hitems i u hu path (Nat.le_of_succ_le_succ hpath) x hx

/-- Where the walk accepts values that share no array, it has met no NaN as far as the open pairs
hold none. -/
theorem nanFreeWithin_of_identical {fuel : Nat} (k : Nat) :
    ∀ {n : Nat} {pairs : Walk.OpenPairs} {v w : Value},
      Walk.identical σ (σ.slot fuel) n pairs v w = some true →
      σ.Apart v w → (∀ p ∈ pairs, σ.NaNFreeWithin k (.array p.2)) → σ.NaNFreeWithin k w := by
  induction k with
  | zero =>
    intro n pairs v w h _ _
    obtain ⟨x, y, -, hy, -⟩ := Walk.identical_eq_true h
    by_cases harray : ∃ b, y = .array b
    · obtain ⟨b, rfl⟩ := harray
      exact nanFreeWithin_zero_of_array ⟨fuel, hy⟩
    · exact nanFreeWithin_of_plain ⟨fuel, hy⟩ (fun b hb => harray ⟨b, hb⟩)
        (Walk.isNaN_of_identical h hy)
  | succ k ih =>
    intro n pairs v w h hapart hpairs
    obtain ⟨x, y, hx, hy, hwhy⟩ := Walk.identical_eq_true h
    have hv : σ.ResolvesTo v x := ⟨fuel, hx⟩
    have hw : σ.ResolvesTo w y := ⟨fuel, hy⟩
    rcases hwhy with ⟨halike, hnot⟩ | ⟨a, b, rfl, rfl, (rfl | hopen) | ⟨hsize, m, hitems⟩⟩
    · refine nanFreeWithin_of_plain hw ?_ (Walk.isNaN_of_identical h hy)
      rintro b rfl
      obtain ⟨a, ha⟩ := halike.symm.array_left
      exact hnot a ha
    · exact absurd (.self hw) (hapart a (.self hv))
    · exact (hpairs (a, b) hopen).congr (resolvesTo_array b) hw
    · -- One step less far, the pair itself holds none, so it may be among the open ones.
      have hshorter : ∀ p ∈ pairs, σ.NaNFreeWithin k (.array p.2) :=
        fun p hp => (hpairs p hp).mono k.le_succ
      have hself : σ.NaNFreeWithin k (.array b) :=
        (ih h hapart hshorter).congr hw (resolvesTo_array b)
      have hmore : ∀ p ∈ (a, b) :: pairs, σ.NaNFreeWithin k (.array p.2) := by
        intro p hp
        rcases List.mem_cons.1 hp with rfl | hp
        · exact hself
        · exact hshorter p hp
      refine nanFreeWithin_succ_of_array hw fun i u' hu' => ?_
      have hi : i < (σ.items a).size := hsize ▸ (Array.getElem?_eq_some_iff.1 hu').1
      have hu : (σ.items a)[i]? = some (σ.items a)[i] := Array.getElem?_eq_getElem hi
      exact ih (hitems i _ u' hu hu') (hapart.item hv hw hu hu') hmore

/-- Values that share no array are identical only if neither of them leads to NaN. -/
theorem nanFree_of_identical {fuel : Nat} {v w : Value} (h : σ.identical fuel v w = some true)
    (hapart : σ.Apart v w) :
    σ.NaNFree w :=
  fun path x hx => nanFreeWithin_of_identical path.length h hapart (fun _ hp => nomatch hp) path
    (Nat.le_refl _) x hx

/-! ## 3. More arrays

A store with more arrays, but with the same contents in those that it had: what was closed before
leads to nothing new. -/

section Frame

variable (hext : σ.ExtendedBy τ) (hσ : σ.Closed)
include hext hσ

/-- Following references stays within what is closed, where nothing was changed. -/
theorem ExtendedBy.resolvesTo_iff {v w : Value} (hv : v.ClosedIn σ) :
    τ.ResolvesTo v w ↔ σ.ResolvesTo v w := by
  have hsame : ∀ fuel, τ.resolve fuel v = σ.resolve fuel v :=
    fun fuel => (hext.agree hσ fuel).follow hopLimit v hv
  simp only [ResolvesTo, hsame]

omit hext in
theorem Closed.resolvesTo {v w : Value} (hv : v.ClosedIn σ) (h : σ.ResolvesTo v w) :
    w.ClosedIn σ := by
  obtain ⟨fuel, h⟩ := h
  exact hσ.resolve hv h

/-- What was there before unfolds as it did. -/
theorem ExtendedBy.unfolds_iff {path : List Nat} {v x : Value} (hv : v.ClosedIn σ) :
    τ.Unfolds v path x ↔ σ.Unfolds v path x := by
  induction path generalizing v with
  | nil =>
    constructor
    · rintro (hx | _)
      exact .here ((hext.resolvesTo_iff hσ hv).1 hx)
    · rintro (hx | _)
      exact .here ((hext.resolvesTo_iff hσ hv).2 hx)
  | cons i path ih =>
    constructor
    · intro h
      cases h with
      | @item _ u _ a _ _ ha hu hx =>
        have ha := (hext.resolvesTo_iff hσ hv).1 ha
        have hlt : a.index < σ.arrays.size := hσ.resolvesTo hv ha
        rw [hext.kept a hlt] at hu
        exact .item ha hu ((ih (hσ.items a id u (Array.mem_of_getElem? hu))).1 hx)
    · intro h
      cases h with
      | @item _ u _ a _ _ ha hu hx =>
        have hlt : a.index < σ.arrays.size := hσ.resolvesTo hv ha
        have hclosed := hσ.items a id u (Array.mem_of_getElem? hu)
        refine .item ((hext.resolvesTo_iff hσ hv).2 ha) ?_ ((ih hclosed).2 hx)
        rwa [hext.kept a hlt]

omit hext in
theorem Closed.unfolds {path : List Nat} {v x : Value} (hv : v.ClosedIn σ)
    (h : σ.Unfolds v path x) : x.ClosedIn σ := by
  induction h with
  | here hx => exact hσ.resolvesTo hv hx
  | item ha hu _ ih => exact ih (hσ.items _ id _ (Array.mem_of_getElem? hu))

omit hσ in
theorem ExtendedBy.alike_iff {x y : Value} (hx : x.ClosedIn σ) (hy : y.ClosedIn σ) :
    τ.Alike x y ↔ σ.Alike x y := by
  cases x with
  | array a =>
    cases y with
    | array b => simp only [Alike, hext.kept a hx, hext.kept b hy]
    | _ => rfl
  | _ => cases y <;> rfl

/-- More arrays do not change which values unfold alike. -/
theorem ExtendedBy.sameUnfolding_iff {v w : Value} (hv : v.ClosedIn σ) (hw : w.ClosedIn σ) :
    τ.SameUnfolding v w ↔ σ.SameUnfolding v w := by
  simp only [SameUnfolding, hext.unfolds_iff hσ hv, hext.unfolds_iff hσ hw]
  have halike : ∀ {path x y}, σ.Unfolds v path x → σ.Unfolds w path y →
      (τ.Alike x y ↔ σ.Alike x y) :=
    fun hx hy => hext.alike_iff (hσ.unfolds hv hx) (hσ.unfolds hw hy)
  constructor
  · intro h path
    constructor
    · intro x hx
      obtain ⟨y, hy, hxy⟩ := (h path).1 x hx
      exact ⟨y, hy, (halike hx hy).1 hxy⟩
    · intro y hy
      obtain ⟨x, hx, hxy⟩ := (h path).2 y hy
      exact ⟨x, hx, (halike hx hy).1 hxy⟩
  · intro h path
    constructor
    · intro x hx
      obtain ⟨y, hy, hxy⟩ := (h path).1 x hx
      exact ⟨y, hy, (halike hx hy).2 hxy⟩
    · intro y hy
      obtain ⟨x, hx, hxy⟩ := (h path).2 y hy
      exact ⟨x, hx, (halike hx hy).2 hxy⟩

theorem ExtendedBy.nanFree_iff {v : Value} (hv : v.ClosedIn σ) : τ.NaNFree v ↔ σ.NaNFree v := by
  simp only [NaNFree, hext.unfolds_iff hσ hv]

/-- Old values lead to old arrays. -/
theorem ExtendedBy.lt_of_leads {v : Value} {a : ArrayId} (h : τ.Leads v a) (hv : v.ClosedIn σ) :
    a.index < σ.arrays.size := by
  induction h with
  | self ha => exact hσ.resolvesTo hv ((hext.resolvesTo_iff hσ hv).1 ha)
  | @item v x a b ha hx _ ih =>
    have hlt : a.index < σ.arrays.size := hσ.resolvesTo hv ((hext.resolvesTo_iff hσ hv).1 ha)
    rw [hext.kept a hlt] at hx
    exact ih (hσ.items a id x hx)

end Frame

/-! ## 4. The copy

A copy shares no array with what was copied. -/

/-- A copy leads to new arrays. -/
theorem CopiedTo.le_of_leads {w : Value} (h : σ.CopiedTo w τ) {v : Value} {a : ArrayId}
    (ha : τ.Leads v a) (hv : v.IsCopy σ.arrays.size τ.arrays.size) : σ.arrays.size ≤ a.index := by
  induction ha with
  | self ha =>
    cases (resolvesTo_plain hv.isReference).1 ha
    exact hv.1
  | item ha hx _ ih =>
    cases (resolvesTo_plain hv.isReference).1 ha
    exact ih (h.items _ hv.1 _ hx)

theorem CopyOf.isReference {f : ArrayId → ArrayId} {x y : Value} (h : σ.CopyOf f x y) :
    y.isReference = false := by
  obtain ⟨u, hu, rfl⟩ := h
  cases u with
  | reference r => cases hu.isReference
  | _ => rfl

namespace Isomorphic

variable {b w : Value} {f : ArrayId → ArrayId} (h : σ.Isomorphic b τ w f) (hext : σ.ExtendedBy τ)
  (hσ : σ.Closed)
include h hext hσ

/-- An array and its copy are of the same length. -/
theorem alike_rename {x u : Value} (hx : x.ClosedIn σ) (hu : σ.ResolvesTo x u)
    (hleads : ∀ a, σ.Leads x a → σ.Leads b a) :
    τ.Alike u (u.rename f) := by
  cases u with
  | array a =>
    have hlt : a.index < σ.arrays.size := hσ.resolvesTo hx hu
    show (τ.items a).size = (τ.items (f a)).size
    rw [hext.kept a hlt, h.length a (hleads a (.self hu))]
  | reference r => cases hu.isReference
  | _ => exact alike_self rfl

/-- What leads only to copied arrays unfolds as its copy does. -/
theorem unfolds (path : List Nat) :
    ∀ {x y : Value}, σ.CopyOf f x y → x.ClosedIn σ → (∀ a, σ.Leads x a → σ.Leads b a) →
      (∀ z, σ.Unfolds x path z → ∃ z', τ.Unfolds y path z' ∧ τ.Alike z z') ∧
      ∀ z', τ.Unfolds y path z' → ∃ z, σ.Unfolds x path z ∧ τ.Alike z z' := by
  induction path with
  | nil =>
    intro x y hcopy hx hleads
    have hself : τ.ResolvesTo y y := (resolvesTo_plain hcopy.isReference).2 rfl
    obtain ⟨u, hu, rfl⟩ := hcopy
    have halike := h.alike_rename hext hσ hx hu hleads
    constructor
    · rintro z (hz | _)
      cases hu.unique hz
      exact ⟨_, .here hself, halike⟩
    · rintro z' (hz | _)
      cases hself.unique hz
      exact ⟨u, .here hu, halike⟩
  | cons i path ih =>
    intro x y hcopy hx hleads
    have hself : τ.ResolvesTo y y := (resolvesTo_plain hcopy.isReference).2 rfl
    obtain ⟨u, hu, rfl⟩ := hcopy
    -- An element and its copy are one step further on, and the element leads only to what its array
    -- leads to.
    have hitem : ∀ {a x' y'}, u = .array a →
        (σ.items a)[i]? = some x' → (τ.items (f a))[i]? = some y' →
        (∀ z, σ.Unfolds x' path z → ∃ z', τ.Unfolds y' path z' ∧ τ.Alike z z') ∧
        ∀ z', τ.Unfolds y' path z' → ∃ z, σ.Unfolds x' path z ∧ τ.Alike z z' := by
      rintro a x' y' rfl hx' hy'
      have hmem := Array.mem_of_getElem? hx'
      obtain ⟨y'', hy'', hcopy'⟩ := h.items a (hleads a (.self hu)) i x' hx'
      cases hy'.symm.trans hy''
      exact ih hcopy' (hσ.items a id x' hmem) fun c hc => hleads c (.item hu hmem hc)
    constructor
    · intro z hz
      cases hz with
      | @item _ x' _ a _ _ ha hx' hz =>
        cases hu.unique ha
        have hi : i < (τ.items (f a)).size := by
          rw [h.length a (hleads a (.self hu))]
          exact (Array.getElem?_eq_some_iff.1 hx').1
        have hy' := Array.getElem?_eq_getElem hi
        obtain ⟨z', hz', halike⟩ := (hitem rfl hx' hy').1 z hz
        exact ⟨z', .item hself hy' hz', halike⟩
    · intro z' hz'
      cases hz' with
      | @item _ y' _ c _ _ hc hy' hz' =>
        have hrename := hself.unique hc
        cases u with
        | array a =>
          cases hrename
          have hi : i < (σ.items a).size := by
            rw [← h.length a (hleads a (.self hu))]
            exact (Array.getElem?_eq_some_iff.1 hy').1
          have hx' := Array.getElem?_eq_getElem hi
          obtain ⟨z, hz, halike⟩ := (hitem rfl hx' hy').2 z' hz'
          exact ⟨z, .item hu hx' hz, halike⟩
        | _ => cases hrename

/-- A copy unfolds as its original does. -/
theorem sameUnfolding (hb : b.ClosedIn σ) : τ.SameUnfolding b w := by
  intro path
  obtain ⟨hforth, hback⟩ := h.unfolds hext hσ path h.root hb fun a ha => ha
  simp only [hext.unfolds_iff hσ hb]
  exact ⟨hforth, hback⟩

end Isomorphic

/-- Copies hold no references, so a settled store stays settled. -/
theorem CopiedTo.settled {w : Value} (h : σ.CopiedTo w τ) (hσ : σ.Closed) (hsettled : σ.Settled) :
    τ.Settled := by
  intro a v hv
  by_cases hold : a.index < σ.arrays.size
  · rw [h.kept a hold] at hv
    obtain ⟨u, hu⟩ := hsettled a v hv
    exact ⟨u, (h.toExtendedBy.resolvesTo_iff hσ (hσ.items a id v hv)).2 hu⟩
  · exact settles_of_plain (h.items a (Nat.not_lt.1 hold) v hv).isReference

/-! ## 5. Identity -/

/-- A value is identical to a copy exactly if it is identical to the original, and no NaN is reached
from that. -/
theorem identical_copy_iff (hσ : σ.Closed) {a b w : Value} (ha : a.ClosedIn σ) (hb : b.ClosedIn σ)
    {fuel n m : Nat} (hcopy : σ.copy fuel b = some (w, τ)) {t t' : Bool}
    (ht : σ.identical n a b = some t) (ht' : τ.identical m a w = some t') :
    t' = true ↔ t = true ∧ σ.NaNFree b := by
  have hcopied := copiedTo_of_copy hcopy
  have hext := hcopied.toExtendedBy
  obtain ⟨f, hisomorphic⟩ := isomorphic_of_copy hcopy
  have hsame : τ.SameUnfolding b w := hisomorphic.sameUnfolding hext hσ hb
  constructor
  · rintro rfl
    -- The value is older than the copy, so it leads to older arrays.
    have hapart : τ.Apart a w := by
      intro c hc hc'
      have hlt := hext.lt_of_leads hσ hc ha
      have hle := hcopied.le_of_leads hc' hcopied.copied
      omega
    have hfree : σ.NaNFree b :=
      (hext.nanFree_iff hσ hb).1 (hsame.symm.nanFree (nanFree_of_identical ht' hapart))
    have hab : σ.SameUnfolding a b :=
      (hext.sameUnfolding_iff hσ ha hb).1 ((sameUnfolding_of_identical ht').trans hsame.symm)
    exact ⟨eq_true_of_sameUnfolding ht hab (hab.symm.nanFree hfree) hfree, hfree⟩
  -- Without NaN, identity is having the same unfolding, which the copy has with the original.
  · rintro ⟨rfl, hfree⟩
    have hfree' : τ.NaNFree b := (hext.nanFree_iff hσ hb).2 hfree
    have hab : τ.SameUnfolding a b :=
      (hext.sameUnfolding_iff hσ ha hb).2 (sameUnfolding_of_identical ht)
    exact eq_true_of_sameUnfolding ht' (hab.trans hsame) (hab.symm.nanFree hfree')
      (hsame.nanFree hfree')

/-- Copying a value and comparing another one with the value and with its copy come to an end.  The
two answers are the same exactly if no NaN is reached from the value or the answer for it is no;
what is shared otherwise does not matter. -/
theorem identity_survives_copying_without_nan (σ : Store) (hσ : σ.Closed) (hsettled : σ.Settled)
    (a b : Value) (ha : a.ClosedIn σ ∧ σ.Settles a) (hb : b.ClosedIn σ ∧ σ.Settles b) :
    ∃ w τ t t' bound,
      (∀ fuel, bound ≤ fuel →
        σ.copy fuel b = some (w, τ) ∧ σ.identical fuel a b = some t ∧
        τ.identical fuel a w = some t') ∧
      (t' = t ↔ (t = true → σ.NaNFree b)) := by
  obtain ⟨k, hcopies⟩ := hsettled.exists_copy hb.2
  obtain ⟨w, τ, hcopy⟩ := hcopies k (Nat.le_refl k)
  have hcopied := copiedTo_of_copy hcopy
  obtain ⟨n, hwalks⟩ := hsettled.exists_identical ha.2 hb.2
  obtain ⟨t, ht⟩ := hwalks n (Nat.le_refl n)
  obtain ⟨u, hu⟩ := ha.2
  have ha' : τ.Settles a := ⟨u, (hcopied.toExtendedBy.resolvesTo_iff hσ ha.1).2 hu⟩
  obtain ⟨m, hwalks'⟩ := (hcopied.settled hσ hsettled).exists_identical ha'
    (settles_of_plain hcopied.copied.isReference)
  obtain ⟨t', ht'⟩ := hwalks' m (Nat.le_refl m)
  refine ⟨w, τ, t, t', k + n + m, fun fuel hfuel => ?_, ?_⟩
  · have hlarge : k ≤ fuel ∧ n ≤ fuel ∧ m ≤ fuel := by omega
    exact ⟨σ.copy_below hlarge.1 b _ hcopy, σ.identical_below hlarge.2.1 a b t ht,
      τ.identical_below hlarge.2.2 a w t' ht'⟩
  · have hiff := identical_copy_iff hσ ha.1 hb.1 hcopy ht ht'
    rw [Bool.eq_iff_iff, hiff]
    tauto

def selfish : Store where
  arrays := #[#[.float Binary64.nan], #[.int 1, .array ⟨1⟩]]
  scopes := #[]
  functions := #[]

/-- No scope, no function, and two arrays of which one holds the number of an array. -/
theorem selfish_closed : selfish.Closed := by
  refine ⟨⟨Nat.zero_le _, Nat.zero_le _⟩, fun s x v hv => ?_, fun a _ v hv => ?_,
    fun f => ⟨fun param hparam => ?_, fun target v hv => ?_⟩⟩
  · simp [scope, selfish, Scope.find?, Scope.empty] at hv
  · obtain ⟨row, hrow, hv⟩ := exists_row_of_mem hv
    have hrows : row = #[.float Binary64.nan] ∨ row = #[.int 1, .array ⟨1⟩] := by
      simpa [selfish] using Array.mem_of_getElem? hrow
    rcases hrows with rfl | rfl
    · rw [Array.mem_singleton.1 hv]
      trivial
    · rcases (by simpa using hv : v = .int 1 ∨ v = .array ⟨1⟩) with rfl | rfl
      · trivial
      · exact Nat.lt_succ_self 1
  · simp [function, selfish, Function.absent] at hparam
  · simp [function, selfish, Function.absent] at hv

theorem selfish_settled : selfish.Settled :=
  (grounded_of_plain (by decide +kernel) (by decide +kernel)).elements

/-- The array of NaN is identical to itself, but not to its copy. -/
theorem nan_array_differs_from_copy :
    selfish.Closed ∧ selfish.Settled ∧ selfish.identical 9 (.array ⟨0⟩) (.array ⟨0⟩) = some true ∧
    ∃ τ, selfish.copy 9 (.array ⟨0⟩) = some (.array ⟨2⟩, τ) ∧
      τ.identical 9 (.array ⟨0⟩) (.array ⟨2⟩) = some false :=
  ⟨selfish_closed, selfish_settled, rfl, _, rfl, by decide +kernel⟩

theorem selfish_identity :
    selfish.Closed ∧ selfish.Settled ∧
    (∀ i < 2, Value.ClosedIn selfish (.array ⟨i⟩) ∧ selfish.Settles (.array ⟨i⟩)) ∧
    ∃ w τ t t' bound,
      (∀ fuel, bound ≤ fuel → selfish.copy fuel (.array ⟨1⟩) = some (w, τ) ∧
        selfish.identical fuel (.array ⟨1⟩) (.array ⟨1⟩) = some t ∧
        τ.identical fuel (.array ⟨1⟩) w = some t') ∧
      (t' = t ↔ (t = true → selfish.NaNFree (.array ⟨1⟩))) := by
  have harrays : ∀ i < 2, Value.ClosedIn selfish (.array ⟨i⟩) ∧ selfish.Settles (.array ⟨i⟩) :=
    fun i hi => ⟨hi, settles_of_plain rfl⟩
  have hloop := harrays 1 (by decide)
  exact ⟨selfish_closed, selfish_settled, harrays,
    identity_survives_copying_without_nan selfish selfish_closed selfish_settled _ _ hloop hloop⟩

end Store
end Scriptlet
