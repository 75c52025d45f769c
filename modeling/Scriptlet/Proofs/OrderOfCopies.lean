import Scriptlet.Proofs.EqualInOrder

/-!
# Order with a deep copy

A comparison looks at the names of arrays: an array is equal to itself, and a pair that is open is
not opened again.  With a copy on the right, it meets the copies of the arrays that it met with the
original, and since no two arrays have the same copy, its open pairs are those of the original with
other names.  Only an array that is compared with itself is not the same array any more; it is
compared with its copy instead, which unfolds in the same way.

That takes more steps, and a text of the original may take more steps than a text of the copy, which
has no references to follow.  So the two comparisons do not run with the same fuel.  They keep step:
what one of them finds, the other one finds with an amount of fuel that is larger by a constant
(`Walk.InStep`).

Copies are those of §10.6 of the specification, the order is the one behind `<=>` in §4.3.
-/

namespace Scriptlet

/-! ## 1. Readings that keep step

What one of two walks finds with some fuel, the other one finds with a fixed amount more. -/

namespace Walk

variable {α β : Type} {g g' : Nat → Option α} {K n : Nat}

/-- What one of two readings finds with some fuel, the other one finds with `K` more. -/
structure InStep (K : Nat) (g g' : Nat → Option α) (n : Nat) : Prop where
  forth : Below (g n) (g' (n + K))
  back : Below (g' n) (g (n + K))

theorem InStep.map (h : InStep K g g' n) (k : α → β) :
    InStep K (fun n => (g n).map k) (fun n => (g' n).map k) n :=
  ⟨h.forth.map k, h.back.map k⟩

theorem InStep.bind (h : InStep K g g' n) (k : α → Option β) :
    InStep K (fun n => g n >>= k) (fun n => g' n >>= k) n :=
  ⟨.bind h.forth fun a => .refl (k a), .bind h.back fun a => .refl (k a)⟩

theorem inStep_const (a : α) : InStep K (fun _ => some a) (fun _ => some a) n := ⟨.refl _, .refl _⟩

/-- Readings that find the same from some fuel on keep step. -/
theorem inStep_of_agree (hg : Steady g) (hg' : Steady g')
    (h : ∀ m, K ≤ m → ∃ a, g m = some a ∧ g' m = some a) (n : Nat) :
    InStep K g g' n := by
  obtain ⟨a, ha, ha'⟩ := h (n + K) (Nat.le_add_left K n)
  constructor
  · intro b hb
    rwa [ha', ← ha, hg (Nat.le_add_right n K)]
  · intro b hb
    rwa [ha, ← ha', hg' (Nat.le_add_right n K)]

/-- One direction: what is found with some fuel is found with more, at a fuel where the two keep
step. -/
theorem Finds.of_below {G G' : Nat → Nat → Option α}
    (hG : ∀ {k m n p}, k ≤ m → n ≤ p → Below (G k n) (G m p))
    (hG' : ∀ {k m n p}, k ≤ m → n ≤ p → Below (G' k n) (G' m p)) {enough : Nat}
    (h : ∀ fuel, enough ≤ fuel → Below (G fuel fuel) (G' fuel (fuel + K))) {a : α}
    (ha : Finds (fun n => G n n) a) :
    Finds (fun n => G' n n) a := by
  obtain ⟨n, hn⟩ := ha
  have hlarge : G (max n enough) (max n enough) = some a :=
    hG (Nat.le_max_left n enough) (Nat.le_max_left n enough) a hn
  have hfound := h _ (Nat.le_max_right n enough) a hlarge
  exact ⟨max n enough + K, hG' (Nat.le_add_right _ K) (Nat.le_refl _) a hfound⟩

/-- Readings that keep step find the same.  They have two amounts of fuel, of which only the second
one is larger for one than for the other. -/
theorem finds_iff_of_inStep {G G' : Nat → Nat → Option α}
    (hG : ∀ {k m n p}, k ≤ m → n ≤ p → Below (G k n) (G m p))
    (hG' : ∀ {k m n p}, k ≤ m → n ≤ p → Below (G' k n) (G' m p)) {enough : Nat}
    (h : ∀ fuel, enough ≤ fuel → InStep K (G fuel) (G' fuel) fuel) (a : α) :
    Finds (fun n => G n n) a ↔ Finds (fun n => G' n n) a :=
  ⟨.of_below hG hG' fun fuel hfuel => (h fuel hfuel).forth,
    .of_below hG' hG fun fuel hfuel => (h fuel hfuel).back⟩

/-- Readings that find the same give the same from some fuel on, also if neither of them finds
anything. -/
theorem exists_eq_of_finds (hg : Steady g) (hg' : Steady g') (h : ∀ a, Finds g a ↔ Finds g' a) :
    ∃ bound, ∀ n, bound ≤ n → g' n = g n := by
  by_cases hfinds : ∃ a, Finds g a
  · obtain ⟨a, ha⟩ := hfinds
    obtain ⟨k, hk⟩ := ha
    obtain ⟨m, hm⟩ := (h a).1 ⟨k, hk⟩
    refine ⟨max k m, fun n hn => ?_⟩
    rw [hg (Nat.le_trans (Nat.le_max_left k m) hn) a hk,
      hg' (Nat.le_trans (Nat.le_max_right k m) hn) a hm]
  · refine ⟨0, fun n _ => ?_⟩
    have hnone : g n = none := Option.eq_none_iff_forall_ne_some.2 fun a ha => hfinds ⟨a, n, ha⟩
    have hnone' : g' n = none := Option.eq_none_iff_forall_ne_some.2 fun a ha =>
      hfinds ⟨a, (h a).2 ⟨n, ha⟩⟩
    rw [hnone, hnone']

/-- Two readings that go one step each keep step. -/
theorem InStep.succ {G G' : Nat → Option α} (h : InStep K G G' n) (hg : ∀ m, g (m + 1) = G m)
    (hg' : ∀ m, g' (m + 1) = G' m) : InStep K g g' (n + 1) := by
  constructor
  · rw [hg, Nat.add_right_comm, hg']
    exact h.forth
  · rw [hg', Nat.add_right_comm, hg]
    exact h.back

/-- Elements are compared up to the first two that differ, and the same pairs in both. -/
theorem lexicographic_related {cmp cmp' : Value → Value → Option Ordering}
    {R : Value → Value → Prop} {ys ys' : List Value} (hys : List.Forall₂ R ys ys') :
    ∀ {xs : List Value}, (∀ x ∈ xs, ∀ y y', R y y' → Below (cmp x y) (cmp' x y')) →
      Below (lexicographic cmp xs ys) (lexicographic cmp' xs ys') := by
  induction hys with
  | nil =>
    intro xs _
    cases xs <;> exact .refl _
  | cons hy _ ih =>
    intro xs hcmp
    cases xs with
    | nil => exact .refl _
    | cons x xs =>
      refine .bind (hcmp x (by simp) _ _ hy) fun o => ?_
      cases o with
      | eq => exact ih fun u hu => hcmp u (by simp [hu])
      | lt | gt => exact .refl _

theorem InStep.lexicographic {cmp cmp' : Nat → Value → Value → Option Ordering}
    {R : Value → Value → Prop} {xs ys ys' : List Value} (hys : List.Forall₂ R ys ys')
    (hcmp : ∀ x ∈ xs, ∀ y y', R y y' → InStep K (cmp · x y) (cmp' · x y') n) :
    InStep K (fun n => Walk.lexicographic (cmp n) xs ys)
      (fun n => Walk.lexicographic (cmp' n) xs ys') n :=
  ⟨lexicographic_related hys fun x hx y y' hy => (hcmp x hx y y' hy).forth,
    lexicographic_related hys.flip fun x hx y' y hy => (hcmp x hx y y' hy).back⟩

/-- A comparison with a number opens no pairs, so it can be turned around. -/
theorem compare_numeric_swap {σ : Store} {slot : Reader} {v : Value} (hv : v.isNumeric = true)
    (n : Nat) (pairs : OpenPairs) (l : Value) :
    compare σ slot n pairs l v = (compare σ slot n [] v l).map Ordering.swap :=
  (compare_numeric hv pairs [] n l).trans (compare_swap n [] l v)

theorem joinTexts_related {text text' : Value → Option String} {R : Value → Value → Prop}
    {xs ys : List Value} (hxs : List.Forall₂ R xs ys)
    (htext : ∀ x y, R x y → Below (text x) (text' y)) (separator : String) :
    Below (joinTexts text separator xs) (joinTexts text' separator ys) := by
  refine .map ?_ _
  induction hxs with
  | nil => exact .refl _
  | cons hx _ ih =>
    rw [List.mapM_cons, List.mapM_cons]
    exact .bind (htext _ _ hx) fun _ => .bind ih fun _ => .refl _

end Walk

/-! ## 2. Parts of a copied value

A comparison goes from a value to its parts, so what is carried along is a part with its copy. -/

namespace Store

variable {σ τ : Store} {b w x y u v : Value} {a : ArrayId} {f : ArrayId → ArrayId} {fuel : Nat}

/-- Where a value leads depends on what it resolves to. -/
theorem Leads.congr (h : σ.Leads v a) (hv : σ.ResolvesTo v u) (hx : σ.ResolvesTo x u) :
    σ.Leads x a := by
  cases h with
  | self ha =>
    cases hv.unique ha
    exact .self hx
  | item ha hmem hlead =>
    cases hv.unique ha
    exact .item hx hmem hlead

theorem Leads.trans_item {c : ArrayId} (h : σ.Leads v a) (hx : x ∈ σ.items a) (hc : σ.Leads x c) :
    σ.Leads v c := by
  induction h with
  | self ha => exact .item ha hx hc
  | item ha hmem _ ih => exact .item ha hmem (ih hx)

structure Twin (σ : Store) (b : Value) (f : ArrayId → ArrayId) (x y : Value) : Prop where
  copy : σ.CopyOf f x y
  closed : x.ClosedIn σ
  leads : ∀ a, σ.Leads x a → σ.Leads b a

/-- The copy is known by what the original resolves to. -/
theorem Twin.eq_rename (h : σ.Twin b f x y) (hu : σ.ResolvesTo x u) : y = u.rename f := by
  obtain ⟨u', hu', rfl⟩ := h.copy
  rw [hu.unique hu']

/-- What a part resolves to has the same copy. -/
theorem Twin.resolved (h : σ.Twin b f x y) (hσ : σ.Closed) (hu : σ.ResolvesTo x u) :
    σ.Twin b f u y := by
  have hself : σ.ResolvesTo u u := (resolvesTo_plain hu.isReference).2 rfl
  exact ⟨⟨u, hself, h.eq_rename hu⟩, hσ.resolvesTo h.closed hu,
    fun a ha => h.leads a (ha.congr hself hu)⟩

/-- A copy is no reference, so it resolves to itself. -/
theorem Twin.resolve (h : σ.Twin b f x y) (hu : σ.resolve fuel x = some u) :
    τ.resolve fuel y = some (u.rename f) := by
  have hy : y.isReference = false := h.copy.isReference
  rw [← h.eq_rename ⟨fuel, hu⟩]
  exact Walk.follow_plain hy hopLimit

theorem rename_of_isArray (hu : u.isArray = false) : u.rename f = u := by
  cases u with
  | array a => cases hu
  | _ => rfl

theorem isNaN_rename (u : Value) : (u.rename f).isNaN = u.isNaN := by
  cases u <;> rfl

/-- A scalar is its own copy. -/
theorem twin_scalar (hu : u.ClosedIn σ) (hscalar : u.isArray = false)
    (hplain : u.isReference = false) : σ.Twin b f u u := by
  have hself : σ.ResolvesTo u u := (resolvesTo_plain hplain).2 rfl
  refine ⟨⟨u, hself, (rename_of_isArray hscalar).symm⟩, hu, fun a ha => ?_⟩
  have harray : ∀ {c}, ¬ σ.ResolvesTo u (.array c) := by
    intro c hc
    cases hself.unique hc
    cases hscalar
  cases ha with
  | self hc => exact absurd hc harray
  | item hc _ _ => exact absurd hc harray

/-- The elements of a copied array are the copies of the elements. -/
theorem Isomorphic.twin_items (h : σ.Isomorphic b τ w f) (hσ : σ.Closed) (ha : σ.Leads b a) :
    List.Forall₂ (fun x y => σ.Twin b f x y ∧ x ∈ σ.items a) (σ.items a).toList
      (τ.items (f a)).toList := by
  have hlength : (σ.items a).toList.length = (τ.items (f a)).toList.length := (h.length a ha).symm
  refine List.forall₂_iff_get.2 ⟨hlength, fun i hi hi' => ?_⟩
  have hx : (σ.items a)[i]? = some ((σ.items a).toList.get ⟨i, hi⟩) := by simp
  have hy : (τ.items (f a))[i]? = some ((τ.items (f a)).toList.get ⟨i, hi'⟩) := by simp
  obtain ⟨y, hy', hcopy⟩ := h.items a ha i _ hx
  cases hy.symm.trans hy'
  have hmem := Array.mem_of_getElem? hx
  exact ⟨⟨hcopy, hσ.items a id _ hmem, fun c hc => ha.trans_item hmem hc⟩, hmem⟩

/-! ## 3. Comparisons side by side

Comparing two values, and comparing the copy of one of them with the other. -/

/-- A value of a closed store with its copy, and amounts of fuel for it: with `fuel`, all elements
of arrays resolve, and from `K` on there is enough for the texts of all values, and to open every
pair of arrays. -/
structure Duplicate (σ τ : Store) (b w : Value) (f : ArrayId → ArrayId) (fuel K : Nat) : Prop where
  closed : σ.Closed
  copied : σ.CopiedTo w τ
  isomorphic : σ.Isomorphic b τ w f
  items : ∀ a, ∀ v ∈ σ.items a, ∃ u, σ.resolve fuel v = some u
  texts : 2 * Walk.room σ.arrayIds [] + 1 < K
  pairs : Walk.room (τ.arrayIds ×ˢ τ.arrayIds) [] < K

namespace Duplicate

variable {K n : Nat} {l : Value} {within : List ArrayId} {pairs : Walk.OpenPairs}

section

variable (h : Duplicate σ τ b w f fuel K)
include h

/-- What is closed resolves as before the copy was made. -/
theorem resolve_eq (hx : x.ClosedIn σ) : τ.resolve fuel x = σ.resolve fuel x :=
  (h.copied.toExtendedBy.agree h.closed fuel).follow hopLimit x hx

/-- Elements of old arrays resolve as they did, and those of new arrays are no references. -/
theorem exists_resolve (a : ArrayId) (hv : v ∈ τ.items a) : ∃ u, τ.resolve fuel v = some u := by
  by_cases hold : a.index < σ.arrays.size
  · rw [h.copied.kept a hold] at hv
    obtain ⟨u, hu⟩ := h.items a v hv
    exact ⟨u, (h.resolve_eq (h.closed.items a id v hv)).trans hu⟩
  · exact ⟨v, Walk.follow_plain (h.copied.items a (Nat.not_lt.1 hold) v hv).isReference hopLimit⟩

theorem eq_of_rename {c : ArrayId} (ha : σ.Leads b a) (hc : σ.Leads b c) (heq : f a = f c) :
    a = c :=
  h.isomorphic.arrays.injOn ha hc heq

/-- The copies are new arrays. -/
theorem ne_rename {c : ArrayId} (ha : a.index < σ.arrays.size) (hc : σ.Leads b c) : a ≠ f c := by
  rintro rfl
  have hnew := (h.copied.fresh (h.isomorphic.arrays.mapsTo hc)).1
  omega

/-- No two arrays have the same copy, so being within an array can be told from the copies. -/
theorem mem_map_rename (hwithin : ∀ c ∈ within, σ.Leads b c) (ha : σ.Leads b a) :
    f a ∈ within.map f ↔ a ∈ within := by
  constructor
  · intro hmem
    obtain ⟨c, hc, heq⟩ := List.mem_map.1 hmem
    rwa [← h.eq_of_rename (hwithin c hc) ha heq]
  · intro hmem
    exact List.mem_map_of_mem hmem

/-- The copy of a value has the text of the value. -/
theorem render (n : Nat) : ∀ {within : List ArrayId} {x y : Value}, (∀ c ∈ within, σ.Leads b c) →
    σ.Twin b f x y →
    Walk.Below (Walk.render σ (σ.slot fuel) n within x)
      (Walk.render τ (τ.slot fuel) n (within.map f) y) := by
  induction n with
  | zero =>
    intro within x y _ _ t ht
    cases ht
  | succ n ih =>
    intro within x y hwithin hxy
    cases x with
    | array a =>
      have ha : σ.Leads b a := hxy.leads a (.self (resolvesTo_array a))
      rw [hxy.eq_rename (resolvesTo_array a)]
      simp only [Value.rename, Walk.render, h.mem_map_rename hwithin ha]
      refine .ite (.refl _) (Walk.joinTexts_related (h.isomorphic.twin_items h.closed ha) ?_ ",")
      refine fun u v huv => ih ?_ huv.1
      intro c hc
      rcases List.mem_cons.1 hc with rfl | hc
      · exact ha
      · exact hwithin c hc
    | reference r =>
      intro t ht
      simp only [Walk.render, Option.bind_eq_bind, Option.bind_eq_some_iff] at ht
      obtain ⟨u, hu, ht⟩ := ht
      -- The copy has been resolved, so its text takes a step less.
      have hcopy := ih hwithin (hxy.resolved h.closed ⟨fuel, hu⟩) t ht
      exact Walk.render_mono (fun _ _ hv => hv) n.le_succ hcopy
    | _ =>
      rw [hxy.eq_rename ((resolvesTo_plain rfl).2 rfl)]
      simp only [Value.rename, Walk.render, h.copied.toExtendedBy.plainText]
      exact .refl _

theorem exists_render {m : Nat} (hm : K ≤ m) (a : ArrayId) :
    ∀ v ∈ (σ.items a).toList, ∃ t, Walk.render σ (σ.slot fuel) m [] v = some t := by
  intro v hv
  obtain ⟨u, hu⟩ := h.items a v (Array.mem_toList_iff.1 hv)
  have href : v.isReference.toNat ≤ 1 := Bool.toNat_le v.isReference
  have htexts := h.texts
  exact Walk.exists_render h.items (by omega) hu

theorem exists_joinTexts_old {m : Nat} (hm : K ≤ m) (ha : a.index < σ.arrays.size) :
    ∃ t, Walk.joinTexts (Walk.render σ (σ.slot fuel) m []) "," (σ.items a).toList = some t ∧
      Walk.joinTexts (Walk.render τ (τ.slot fuel) m []) "," (τ.items a).toList = some t := by
  obtain ⟨t, ht⟩ := Walk.exists_joinTexts (h.exists_render hm a) ","
  refine ⟨t, ht, ?_⟩
  rw [h.copied.kept a ha, ← ht]
  refine joinTexts_congr fun v hv => ?_
  have hagree := h.copied.toExtendedBy.agree h.closed fuel
  exact hagree.render h.closed h.copied.toExtendedBy m [] v
    (h.closed.items a id v (Array.mem_toList_iff.1 hv))

/-- The elements of an array and those of its copy have the same texts. -/
theorem exists_joinTexts {m : Nat} (hm : K ≤ m) (ha : σ.Leads b a) :
    ∃ t, Walk.joinTexts (Walk.render σ (σ.slot fuel) m []) "," (σ.items a).toList = some t ∧
      Walk.joinTexts (Walk.render τ (τ.slot fuel) m []) "," (τ.items (f a)).toList = some t := by
  obtain ⟨t, ht⟩ := Walk.exists_joinTexts (h.exists_render hm a) ","
  have hcopy := Walk.joinTexts_related (h.isomorphic.twin_items h.closed ha)
    (fun u v huv => h.render m (fun c hc => absurd hc List.not_mem_nil) huv.1) ","
  exact ⟨t, ht, hcopy t ht⟩

omit h in
/-- Scalars are ordered by what they are, whatever the store holds. -/
theorem scalarOrder_eq (hext : σ.ExtendedBy τ) (x y : Value) :
    Walk.scalarOrder τ x y = Walk.scalarOrder σ x y := by
  simp only [Walk.scalarOrder, Walk.compareText, hext.plainText]

/-- An array is compared with a scalar by its text or by its only element. -/
theorem arrayOrder {R : Value → Value → Prop} {c : ArrayId} {pairs' : Walk.OpenPairs}
    (hitems : List.Forall₂ R (σ.items a).toList (τ.items c).toList)
    (htexts : ∀ m, K ≤ m → ∃ t,
      Walk.joinTexts (Walk.render σ (σ.slot fuel) m []) "," (σ.items a).toList = some t ∧
      Walk.joinTexts (Walk.render τ (τ.slot fuel) m []) "," (τ.items c).toList = some t)
    (hsingle : ∀ x y, R x y → v.isNumeric = true →
      Walk.InStep K (fun n => Walk.compare σ (σ.slot fuel) n pairs x v)
        (fun n => Walk.compare τ (τ.slot fuel) n pairs' y v) n) :
    Walk.InStep K (fun n => Walk.arrayOrder σ (σ.slot fuel) n pairs a v)
      (fun n => Walk.arrayOrder τ (τ.slot fuel) n pairs' c v) n := by
  have hsteady : ∀ {ρ : Store} (vs : List Value),
      Walk.Steady fun n => Walk.joinTexts (Walk.render ρ (ρ.slot fuel) n []) "," vs :=
    fun vs n m hnm t => Walk.joinTexts_mono fun _ _ => Walk.render_mono (fun _ _ hv => hv) hnm
  have htext := (Walk.inStep_of_agree (hsteady _) (hsteady _) htexts n).bind
    fun t => some (Ord.compare t (Walk.plainText τ v))
  simp only [Walk.arrayOrder, ← h.copied.toExtendedBy.plainText]
  split
  · exact Walk.inStep_const _
  · revert htext hitems
    generalize (σ.items a).toList = xs, (τ.items c).toList = ys
    intro hitems htext
    cases hitems with
    | nil => exact htext
    | cons hx hrest =>
      cases hrest with
      | cons _ _ => exact htext
      | nil =>
        cases hnumeric : v.isNumeric with
        | false => exact htext
        | true => exact hsingle _ _ hx hnumeric

/-- The same for open pairs, of which only the right one is a copy. -/
theorem mem_map_pairs (hpairs : ∀ p ∈ pairs, σ.Leads b p.2) {c : ArrayId} (hc : σ.Leads b c) :
    (a, f c) ∈ pairs.map (Prod.map id f) ↔ (a, c) ∈ pairs := by
  constructor
  · intro hmem
    obtain ⟨⟨a', c'⟩, hp, heq⟩ := List.mem_map.1 hmem
    simp only [Prod.map, id_eq, Prod.mk.injEq] at heq
    obtain ⟨rfl, heq⟩ := heq
    rwa [← h.eq_of_rename (hpairs _ hp) hc heq]
  · intro hmem
    exact List.mem_map_of_mem hmem

/-- An array and its copy are equal in order, whatever is open. -/
theorem compare_self {m : Nat} (hm : K ≤ m) {c : ArrayId} (hl : l.ClosedIn σ)
    (hu : σ.resolve fuel l = some (.array c)) (hy : τ.resolve fuel y = some (.array (f c)))
    (hc : σ.Leads b c) (pairs : Walk.OpenPairs) :
    Walk.compare τ (τ.slot fuel) m pairs l y = some .eq := by
  have hclosed : (Value.array c).ClosedIn σ := h.closed.resolvesTo hl ⟨fuel, hu⟩
  have hleads : ∀ a, σ.Leads (.array c) a → σ.Leads b a := by
    intro a ha
    cases ha with
    | self ha =>
      cases (resolvesTo_array c).unique ha
      exact hc
    | item ha hmem hlead =>
      cases (resolvesTo_array c).unique ha
      exact hc.trans_item hmem hlead
  have hsame : τ.SameUnfolding (.array c) (.array (f c)) := by
    intro path
    obtain ⟨hforth, hback⟩ := h.isomorphic.unfolds h.copied.toExtendedBy h.closed path
      ⟨.array c, resolvesTo_array c, rfl⟩ hclosed hleads
    simp only [h.copied.toExtendedBy.unfolds_iff h.closed hclosed]
    exact ⟨hforth, hback⟩
  have hroom : Walk.room (τ.arrayIds ×ˢ τ.arrayIds) pairs < m :=
    Nat.lt_of_le_of_lt (Walk.room_anti fun p hp => absurd hp List.not_mem_nil)
      (Nat.lt_of_lt_of_le h.pairs hm)
  rw [← Walk.compare_resolved ((h.resolve_eq hl).trans hu) hy]
  exact Walk.compare_of_sameUnfolding (fun a v => h.exists_resolve a) hroom rfl rfl hsame

end

/-! ## 4. One step of both comparisons

One lemma for each pair of forms that the two operands can have. -/

structure Encounter (σ : Store) (b : Value) (f : ArrayId → ArrayId) (fuel : Nat)
    (pairs : Walk.OpenPairs) (l x y u v : Value) : Prop where
  opened : ∀ p ∈ pairs, σ.Leads b p.2
  closed : l.ClosedIn σ
  left : σ.resolve fuel l = some u
  twin : σ.Twin b f x y
  right : σ.resolve fuel x = some v

/-- With this fuel, comparing with the copy keeps step with comparing with the original. -/
def Followed (σ τ : Store) (b : Value) (f : ArrayId → ArrayId) (fuel K n : Nat) : Prop :=
  ∀ {pairs : Walk.OpenPairs} {l x y u v : Value}, Encounter σ b f fuel pairs l x y u v →
    Walk.InStep K (fun n => Walk.compare σ (σ.slot fuel) n pairs l x)
      (fun n => Walk.compare τ (τ.slot fuel) n (pairs.map (Prod.map id f)) l y) n

section

variable (h : Duplicate σ τ b w f fuel K) (he : Encounter σ b f fuel pairs l x y u v)
include h he

theorem left_eq : τ.resolve fuel l = some u := (h.resolve_eq he.closed).trans he.left

omit h in
theorem Encounter.right_eq : τ.resolve fuel y = some (v.rename f) := he.twin.resolve he.right

theorem left_closed : u.ClosedIn σ := h.closed.resolvesTo he.closed ⟨fuel, he.left⟩

theorem right_closed : v.ClosedIn σ := h.closed.resolvesTo he.twin.closed ⟨fuel, he.right⟩

omit h in
theorem Encounter.left_plain : u.isReference = false := Walk.follow_isReference hopLimit he.left

omit h in
theorem Encounter.right_plain : v.isReference = false := Walk.follow_isReference hopLimit he.right

theorem compare_scalars (hu : u.isArray = false) (hv : v.isArray = false) :
    Walk.InStep K (fun n => Walk.compare σ (σ.slot fuel) n pairs l x)
      (fun n => Walk.compare τ (τ.slot fuel) n (pairs.map (Prod.map id f)) l y) (n + 1) := by
  have hy : τ.resolve fuel y = some v := rename_of_isArray hv ▸ he.right_eq
  refine (Walk.inStep_const (Walk.scalarOrder σ u v)).succ
    (fun m => Walk.compare_scalars he.left he.right hu hv) fun m => ?_
  rw [Walk.compare_scalars (h.left_eq he) hy hu hv, scalarOrder_eq h.copied.toExtendedBy]

/-- The array is an old one, and so it is the same in both stores. -/
theorem compare_array_left (ih : Followed σ τ b f fuel K n) (hu : u = .array a)
    (hv : v.isArray = false) :
    Walk.InStep K (fun n => Walk.compare σ (σ.slot fuel) n pairs l x)
      (fun n => Walk.compare τ (τ.slot fuel) n (pairs.map (Prod.map id f)) l y) (n + 1) := by
  subst hu
  have hold : a.index < σ.arrays.size := h.left_closed he
  have hy : τ.resolve fuel y = some v := rename_of_isArray hv ▸ he.right_eq
  refine .succ (h.arrayOrder (R := fun x y => x = y ∧ x ∈ σ.items a) ?_
    (fun m hm => h.exists_joinTexts_old hm hold) ?_)
    (fun m => Walk.compare_array_left he.left he.right hv)
    fun m => Walk.compare_array_left (h.left_eq he) hy hv
  · rw [h.copied.kept a hold, List.forall₂_same]
    exact fun x hx => ⟨rfl, Array.mem_toList_iff.1 hx⟩
  · rintro item _ ⟨rfl, hmem⟩ _
    obtain ⟨u, hu⟩ := h.items a item hmem
    exact ih ⟨he.opened, h.closed.items a id item hmem, hu,
      twin_scalar (h.right_closed he) hv he.right_plain,
      Walk.follow_plain he.right_plain hopLimit⟩

/-- The array is copied, and so is its only element. -/
theorem compare_array_right (ih : Followed σ τ b f fuel K n) (hu : u.isArray = false)
    (hv : v = .array a) :
    Walk.InStep K (fun n => Walk.compare σ (σ.slot fuel) n pairs l x)
      (fun n => Walk.compare τ (τ.slot fuel) n (pairs.map (Prod.map id f)) l y) (n + 1) := by
  subst hv
  have ha : σ.Leads b a := he.twin.leads a (.self ⟨fuel, he.right⟩)
  refine .succ ((h.arrayOrder (h.isomorphic.twin_items h.closed ha)
    (fun m hm => h.exists_joinTexts hm ha) ?_).map Ordering.swap)
    (fun m => Walk.compare_array_right he.left he.right hu)
    fun m => Walk.compare_array_right (h.left_eq he) he.right_eq hu
  rintro item copy ⟨htwin, hmem⟩ hnumeric
  obtain ⟨v, hv⟩ := h.items a item hmem
  have hnone : ∀ p ∈ ([] : Walk.OpenPairs), σ.Leads b p.2 := fun p hp => absurd hp List.not_mem_nil
  -- The element of the copied array stands on the left here, next to a number.
  simp only [Walk.compare_numeric_swap hnumeric]
  exact (ih ⟨hnone, h.left_closed he, Walk.follow_plain he.left_plain hopLimit, htwin, hv⟩).map
    Ordering.swap

/-- Either both comparisons know the pair, or both open it; only if the two arrays are the same one
does the comparison with the copy take longer. -/
theorem compare_arrays (ih : Followed σ τ b f fuel K n) {c : ArrayId} (hu : u = .array a)
    (hv : v = .array c) :
    Walk.InStep K (fun n => Walk.compare σ (σ.slot fuel) n pairs l x)
      (fun n => Walk.compare τ (τ.slot fuel) n (pairs.map (Prod.map id f)) l y) (n + 1) := by
  subst hu hv
  have hold : a.index < σ.arrays.size := h.left_closed he
  have hc : σ.Leads b c := he.twin.leads c (.self ⟨fuel, he.right⟩)
  have hy : τ.resolve fuel y = some (.array (f c)) := he.right_eq
  by_cases hself : a = c
  · -- From some fuel on, both comparisons say equal.
    subst hself
    refine Walk.inStep_of_agree (fun _ _ hnm => Walk.compare_below (fun _ _ hr => hr) hnm pairs l x)
      (fun _ _ hnm => Walk.compare_below (fun _ _ hr => hr) hnm _ l y)
      (fun m hm => ⟨.eq, ?_, ?_⟩) (n + 1)
    · obtain ⟨m, rfl⟩ : ∃ k, m = k + 1 :=
        Nat.exists_eq_add_one.2 (Nat.lt_of_lt_of_le (Nat.zero_lt_of_lt h.pairs) hm)
      rw [Walk.compare_arrays he.left he.right, if_pos (.inl rfl)]
    · exact h.compare_self hm he.closed he.left hy hc _
  · have hiff : (a = f c ∨ (a, f c) ∈ pairs.map (Prod.map id f)) ↔ a = c ∨ (a, c) ∈ pairs := by
      rw [h.mem_map_pairs he.opened hc]
      simp [hself, h.ne_rename hold hc]
    by_cases hknown : a = c ∨ (a, c) ∈ pairs
    · refine (Walk.inStep_const .eq).succ (fun m => ?_) fun m => ?_
      · rw [Walk.compare_arrays he.left he.right, if_pos hknown]
      · rw [Walk.compare_arrays (h.left_eq he) hy, if_pos (hiff.2 hknown)]
    · have hitems : Walk.InStep K
          (fun n => Walk.lexicographic (Walk.compare σ (σ.slot fuel) n ((a, c) :: pairs))
            (σ.items a).toList (σ.items c).toList)
          (fun n => Walk.lexicographic
            (Walk.compare τ (τ.slot fuel) n (((a, c) :: pairs).map (Prod.map id f)))
            (σ.items a).toList (τ.items (f c)).toList) n := by
        refine .lexicographic (h.isomorphic.twin_items h.closed hc) fun z hz item copy hitem => ?_
        rw [Array.mem_toList_iff] at hz
        obtain ⟨u, hu⟩ := h.items a z hz
        obtain ⟨v, hv⟩ := h.items c item hitem.2
        refine ih ⟨fun p hp => ?_, h.closed.items a id z hz, hu, hitem.1, hv⟩
        rcases List.mem_cons.1 hp with rfl | hp
        · exact hc
        · exact he.opened p hp
      refine hitems.succ (fun m => ?_) fun m => ?_
      · rw [Walk.compare_arrays he.left he.right, if_neg hknown]
      · rw [Walk.compare_arrays (h.left_eq he) hy, if_neg (fun hknown' => hknown (hiff.1 hknown')),
          h.copied.kept a hold]
        rfl

end

/-- Induction on the fuel of both comparisons, one case for each pair of forms. -/
theorem followed (h : Duplicate σ τ b w f fuel K) (n : Nat) : Followed σ τ b f fuel K n := by
  induction n with
  | zero =>
    intro pairs l x y u v _
    exact ⟨fun o ho => (by cases ho), fun o ho => (by cases ho)⟩
  | succ n ih =>
    intro pairs l x y u v he
    cases hu : u.isArray <;> cases hv : v.isArray
    case false.false => exact h.compare_scalars he hu hv
    case true.false =>
      obtain ⟨a, ha⟩ := Value.isArray_iff.1 hu
      exact h.compare_array_left he ih ha hv
    case false.true =>
      obtain ⟨a, ha⟩ := Value.isArray_iff.1 hv
      exact h.compare_array_right he ih hu ha
    case true.true =>
      obtain ⟨a, ha⟩ := Value.isArray_iff.1 hu
      obtain ⟨c, hc⟩ := Value.isArray_iff.1 hv
      exact h.compare_arrays he ih ha hc

end Duplicate

/-! ## 5. Order with a copy

NaN counts as equal to NaN in the order, so here nothing is asked of the numbers. -/

/-- Relations other than identity look at their operands through the order, and for NaN. -/
theorem relation_congr {l : Value} (hx : σ.resolve fuel l = some x)
    (hx' : τ.resolve fuel l = some x) (hy : σ.resolve fuel b = some y)
    (hw : τ.resolve fuel w = some (y.rename f)) (hcompare : τ.compare fuel l w = σ.compare fuel l b)
    {op : RelationOp} (hop : op ≠ .identical ∧ op ≠ .notIdentical) :
    τ.relation fuel op l w = σ.relation fuel op l b := by
  have hresolved : τ.compare fuel x (y.rename f) = σ.compare fuel x y :=
    (Walk.compare_resolved hx' hw).trans (hcompare.trans (Walk.compare_resolved hx hy).symm)
  have hloose : τ.looseEq fuel l w = σ.looseEq fuel l b := by
    simp only [looseEq, hx, hx', hy, hw, any_numericView, isNaN_rename, hresolved,
      Option.bind_eq_bind, Option.bind_some]
  have hordered : ∀ accept, τ.ordered fuel accept l w = σ.ordered fuel accept l b := by
    intro accept
    simp only [ordered, hx, hx', hy, hw, isNaN_rename, hcompare, Option.bind_eq_bind,
      Option.bind_some]
  cases op with
  | identical => exact absurd rfl hop.1
  | notIdentical => exact absurd rfl hop.2
  | eq => exact hloose
  | notEq => exact congrArg (Option.map (!·)) hloose
  | less | lessEq | greater | greaterEq => exact hordered _

/-- In a settled store every value that resolves has a copy, and fuel for it. -/
theorem Settled.exists_duplicate (hsettled : σ.Settled) (hσ : σ.Closed) (hb : σ.Settles b) :
    ∃ w τ f K bound, ∀ fuel, bound ≤ fuel →
      σ.copy fuel b = some (w, τ) ∧ Duplicate σ τ b w f fuel K := by
  obtain ⟨k, hcopies⟩ := hsettled.exists_copy hb
  obtain ⟨w, τ, hcopy⟩ := hcopies k (Nat.le_refl k)
  obtain ⟨f, hisomorphic⟩ := isomorphic_of_copy hcopy
  obtain ⟨n, hitems⟩ := hsettled.exists_fuel
  let texts := 2 * Walk.room σ.arrayIds []
  let pairs := Walk.room (τ.arrayIds ×ˢ τ.arrayIds) []
  refine ⟨w, τ, f, texts + pairs + 2, k + n, fun fuel hfuel => ⟨?_, ?_⟩⟩
  · exact σ.copy_below (Nat.le_trans (Nat.le_add_right k n) hfuel) b _ hcopy
  · exact ⟨hσ, copiedTo_of_copy hcopy, hisomorphic,
      hitems fuel (Nat.le_trans (Nat.le_add_left n k) hfuel), by omega, by omega⟩

/-- Copying a value comes to an end.  With enough fuel, comparing another value with the copy gives
exactly what comparing it with the value gives, or neither comes to an end; and so does every
relation but identity. -/
theorem order_survives_copying (σ : Store) (hσ : σ.Closed) (hsettled : σ.Settled) (a b : Value)
    (ha : a.ClosedIn σ ∧ σ.Settles a) (hb : b.ClosedIn σ ∧ σ.Settles b) :
    ∃ w τ bound, ∀ fuel, bound ≤ fuel →
      σ.copy fuel b = some (w, τ) ∧ τ.compare fuel a w = σ.compare fuel a b ∧
      ∀ op : RelationOp, op ≠ .identical ∧ op ≠ .notIdentical →
        τ.relation fuel op a w = σ.relation fuel op a b := by
  obtain ⟨w, τ, f, K, bound, hduplicate⟩ := hsettled.exists_duplicate hσ hb.2
  obtain ⟨u, k, hu⟩ := ha.2
  obtain ⟨v, m, hv⟩ := hb.2
  let enough := max bound (max k m)
  have hencounter : ∀ fuel, enough ≤ fuel → Duplicate.Encounter σ b f fuel [] a b w u v :=
    fun fuel hfuel =>
      ⟨fun p hp => absurd hp List.not_mem_nil, ha.1, resolve_mono (by omega) hu,
        ⟨(hduplicate fuel (by omega)).2.isomorphic.root, hb.1, fun _ h => h⟩,
        resolve_mono (by omega) hv⟩
  have hstep : ∀ fuel, enough ≤ fuel →
      Walk.InStep K (fun n => Walk.compare σ (σ.slot fuel) n [] a b)
        (fun n => Walk.compare τ (τ.slot fuel) n [] a w) fuel :=
    fun fuel hfuel => (hduplicate fuel (by omega)).2.followed fuel (hencounter fuel hfuel)
  have hsame : ∀ o, Walk.Finds (σ.compare · a b) o ↔ Walk.Finds (τ.compare · a w) o :=
    Walk.finds_iff_of_inStep (fun hkm hnp => Walk.compare_below (slot_mono hkm) hnp [] a b)
      (fun hkm hnp => Walk.compare_below (slot_mono hkm) hnp [] a w) hstep
  obtain ⟨bound', heq⟩ := Walk.exists_eq_of_finds (fun _ _ hnm => σ.compare_below hnm a b)
    (fun _ _ hnm => τ.compare_below hnm a w) hsame
  refine ⟨w, τ, max enough bound', fun fuel hfuel => ?_⟩
  have hcompare := heq fuel (by omega)
  have he := hencounter fuel (by omega)
  obtain ⟨hcopy, h⟩ := hduplicate fuel (by omega)
  exact ⟨hcopy, hcompare, fun op hop => relation_congr he.left (h.left_eq he) he.right he.right_eq
    hcompare hop⟩

/-- Without functions, a store is closed if its variables and elements are. -/
theorem closed_of_forall (hfunctions : σ.functions = #[])
    (hscopes : ∀ s ∈ σ.scopes, ∀ b ∈ s.bindings, b.2.ClosedIn σ)
    (harrays : ∀ row ∈ σ.arrays, ∀ v ∈ row, v.ClosedIn σ) :
    σ.Closed := by
  have habsent : ∀ g, σ.function g = .absent := by
    intro g
    simp [function, hfunctions]
  refine ⟨⟨Nat.zero_le _, Nat.zero_le _⟩, fun s x v hv => ?_, fun a _ v hv => ?_, fun g => ⟨?_, ?_⟩⟩
  · unfold scope at hv
    cases hs : σ.scopes[s.index]? with
    | none =>
      rw [hs] at hv
      cases hv
    | some scope =>
      rw [hs] at hv
      exact hscopes scope (Array.mem_of_getElem? hs) (x, v) (mem_bindings_of_find? hv)
  · obtain ⟨row, hrow, hv⟩ := exists_row_of_mem hv
    exact harrays row (Array.mem_of_getElem? hrow) v hv
  · intro param hparam
    simp [habsent, Function.absent] at hparam
  · intro target v hv
    simp [habsent, Function.absent] at hv

/-- Two arrays that begin with the same elements.  They share the first of them, and an array that
holds itself and NaN, which one of them has through the variable `x`. -/
def braided : Store where
  arrays := #[#[.int 2, .array ⟨0⟩, .reference (.binding ⟨⟨0⟩, []⟩ "x")],
    #[.int 2, .array ⟨0⟩, .array ⟨2⟩, .int 1],
    #[.array ⟨2⟩, .float Binary64.nan]]
  scopes := #[⟨[("x", .array ⟨2⟩)]⟩]
  functions := #[]

/-- The two arrays differ in their last element, so the first one comes first, and so it does with
the copy. -/
theorem braided_order :
    braided.Closed ∧ braided.Settled ∧
    (∀ i < 3, Value.ClosedIn braided (.array ⟨i⟩) ∧ braided.Settles (.array ⟨i⟩)) ∧
    braided.compare 9 (.array ⟨0⟩) (.array ⟨1⟩) = some .lt ∧
    ∃ w τ bound, ∀ fuel, bound ≤ fuel →
      braided.copy fuel (.array ⟨1⟩) = some (w, τ) ∧ τ.compare fuel (.array ⟨0⟩) w = some .lt := by
  have hclosed : braided.Closed := by
    refine closed_of_forall rfl ?_ ?_ <;>
      simp [braided, Value.ClosedIn, Value.Within, Reference.Within, Policy.inside, extent]
  have hsettled : braided.Settled := settled_of_resolves 9 (by decide +kernel)
  have harrays : ∀ i < 3, Value.ClosedIn braided (.array ⟨i⟩) ∧ braided.Settles (.array ⟨i⟩) :=
    fun i hi => ⟨hi, settles_of_plain rfl⟩
  have horder : braided.compare 9 (.array ⟨0⟩) (.array ⟨1⟩) = some .lt := by decide +kernel
  obtain ⟨w, τ, bound, hcopy⟩ :=
    order_survives_copying braided hclosed hsettled _ _ (harrays 0 (by decide))
      (harrays 1 (by decide))
  refine ⟨hclosed, hsettled, harrays, horder, w, τ, max bound 9, fun fuel hfuel => ?_⟩
  obtain ⟨hcopied, hcompare, -⟩ := hcopy fuel (by omega)
  exact ⟨hcopied, hcompare.trans (braided.compare_below (by omega) _ _ _ horder)⟩

end Store
end Scriptlet
