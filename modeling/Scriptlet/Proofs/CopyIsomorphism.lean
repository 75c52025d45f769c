import Scriptlet.Proofs.Unfolding
import Mathlib.Data.List.Forall2
import Mathlib.Data.Set.Function

/-!
# A deep copy is isomorphic to its original

The copying walk keeps a table of the arrays that it has met and the numbers of their copies.  An
array enters the table before its elements are visited, so a cycle comes back to a number that is
known, and its elements are filled in once they are copied.  A step of the walk is described by what
it adds to the table: different arrays get different numbers, and the copy of every array that was
added mirrors it element by element (`Copies.Mirrored`).  At the end all copies are filled, and the
table is the isomorphism.
-/

namespace Scriptlet

/-! ## 1. Originals and copies -/

/-- The arrays that a value leads to through elements of arrays, with references followed. -/
inductive Store.Leads (σ : Store) : Value → ArrayId → Prop
  | self {v : Value} {a : ArrayId} : σ.ResolvesTo v (.array a) → Leads σ v a
  | item {v x : Value} {a b : ArrayId} :
      σ.ResolvesTo v (.array a) → x ∈ σ.items a → Leads σ x b → Leads σ v b

def Value.rename (f : ArrayId → ArrayId) : Value → Value
  | .array a => .array (f a)
  | v => v

/-- The second value is what the first one resolves to, with other names for arrays. -/
def Store.CopyOf (σ : Store) (f : ArrayId → ArrayId) (x y : Value) : Prop :=
  ∃ u, σ.ResolvesTo x u ∧ y = u.rename f

/-- What the value `w` leads to in `τ` is what `v` leads to in `σ`, with other names for arrays.
The names are different for different arrays, so sharing and cycles are as they were. -/
structure Store.Isomorphic (σ : Store) (v : Value) (τ : Store) (w : Value) (f : ArrayId → ArrayId) :
    Prop where
  arrays : Set.BijOn f {a | σ.Leads v a} {b | τ.Reaches w b}
  root : σ.CopyOf f v w
  length : ∀ a, σ.Leads v a → (τ.items (f a)).size = (σ.items a).size
  items : ∀ a, σ.Leads v a → ∀ (i : Nat) x, (σ.items a)[i]? = some x →
    ∃ y, (τ.items (f a))[i]? = some y ∧ σ.CopyOf f x y

/-- The second value stands for what the first one resolves to, by a table of arrays and their
copies. -/
inductive Store.Mirrors (σ : Store) (m : ArrayId → Option ArrayId) (x : Value) : Value → Prop
  | array {a b : ArrayId} : σ.ResolvesTo x (.array a) → m a = some b → Mirrors σ m x (.array b)
  | leaf {y : Value} : σ.ResolvesTo x y → (∀ a, y ≠ .array a) → Mirrors σ m x y

theorem Store.Mirrors.mono {σ : Store} {m m' : ArrayId → Option ArrayId} {x y : Value}
    (h : σ.Mirrors m x y) (hm : ∀ a b, m a = some b → m' a = some b) : σ.Mirrors m' x y := by
  cases h with
  | array ha hb => exact .array ha (hm _ _ hb)
  | leaf hy hnot => exact .leaf hy hnot

/-! ## 2. Steps of the walk

The record of copies grows along the walk, and stays one to one because every copy is a new array.
-/

def Copies.copyOf? (c : Copies) (a : ArrayId) : Option ArrayId := c.made.lookup a

def Copies.Injective (c : Copies) : Prop :=
  ∀ a a' b, c.copyOf? a = some b → c.copyOf? a' = some b → a = a'

/-- A step of a copy of the values `vs` to the values `ws`, from the state `c` to `d`: the table has
grown by arrays whose copies are new, and which their copies mirror. -/
structure Copies.Mirrored (σ : Store) (c d : Copies) (vs ws : List Value) : Prop
    extends c.Grows σ.arrays.size d ws where
  table : ∀ a b, c.copyOf? a = some b → d.copyOf? a = some b
  added : ∀ a b, d.copyOf? a = some b → c.copyOf? a = some b ∨
    σ.arrays.size + c.fresh.size ≤ b.index
  injective : d.Injective
  values : List.Forall₂ (σ.Mirrors d.copyOf?) vs ws
  filled : ∀ a j, c.fresh.size ≤ j → d.copyOf? a = some ⟨σ.arrays.size + j⟩ →
    ∃ items, d.fresh[j]? = some items ∧
      List.Forall₂ (σ.Mirrors d.copyOf?) (σ.items a).toList items.toList

namespace Copies

variable {σ : Store} {c d e : Copies} {v w : Value} {vs ws : List Value}

/-- Nothing is added to the table. -/
theorem Mirrored.refl (hc : c.Sound σ.arrays.size) (hinj : c.Injective)
    (hvalues : List.Forall₂ (σ.Mirrors c.copyOf?) vs ws)
    (hws : ∀ w ∈ ws, w.IsCopy σ.arrays.size (σ.arrays.size + c.fresh.size)) :
    c.Mirrored σ c vs ws := by
  refine ⟨.refl hc hws, fun _ _ h => h, fun _ _ h => .inl h, hinj, hvalues, fun a j hj ha => ?_⟩
  have hlt := (hc.made a _ ha).2
  exact absurd hlt (by simp only; omega)

/-- A step for one value and then one for the others. -/
theorem Mirrored.cons (h₁ : c.Mirrored σ d [v] [w]) (h₂ : d.Mirrored σ e vs ws) :
    c.Mirrored σ e (v :: vs) (w :: ws) := by
  refine ⟨h₁.toGrows.cons h₂.toGrows, fun a b h => h₂.table a b (h₁.table a b h), fun a b h => ?_,
    h₂.injective, ?_, fun a j hj ha => ?_⟩
  · rcases h₂.added a b h with hd | hnew
    · exact h₁.added a b hd
    · have hsize := h₁.size
      exact .inr (by omega)
  · refine .cons ?_ h₂.values
    cases h₁.values with
    | cons hv _ => exact hv.mono h₂.table
  · rcases h₂.added a _ ha with hd | hnew
    · -- The array was in the table after the first step, which has filled its copy.
      obtain ⟨items, hitems, hmirror⟩ := h₁.filled a j hj hd
      have hlt : j < d.fresh.size := (Array.getElem?_eq_some_iff.1 hitems).1
      exact ⟨items, (h₂.kept j hlt).trans hitems, hmirror.imp fun _ _ h => h.mono h₂.table⟩
    · exact h₂.filled a j (by simp only at hnew; omega) ha

theorem copyOf?_reserve (c : Copies) (lo : Nat) (a a' : ArrayId) :
    (c.reserve lo a).copyOf? a' = if a' = a then some ⟨lo + c.fresh.size⟩ else c.copyOf? a' := by
  unfold copyOf? reserve
  rw [List.lookup_cons]
  by_cases h : a' = a
  · simp [h]
  · simp [h, beq_false_of_ne h]

/-- The number that is reserved is behind all numbers that are in use. -/
theorem Injective.reserve (hinj : c.Injective) (hc : c.Sound σ.arrays.size) (a : ArrayId) :
    (c.reserve σ.arrays.size a).Injective := by
  intro a₁ a₂ b h₁ h₂
  rw [copyOf?_reserve] at h₁ h₂
  have hnew : ∀ {a'}, c.copyOf? a' ≠ some ⟨σ.arrays.size + c.fresh.size⟩ := by
    intro a' ha'
    exact Nat.lt_irrefl _ (hc.made a' _ ha').2
  split at h₁ <;> split at h₂
  · next e₁ e₂ => rw [e₁, e₂]
  · cases h₁
    exact absurd h₂ hnew
  · cases h₂
    exact absurd h₁ hnew
  · exact hinj a₁ a₂ b h₁ h₂

/-- Once the elements of an array are copied, the array is mirrored by its copy. -/
theorem Mirrored.fill {a : ArrayId} (hv : σ.ResolvesTo v (.array a)) (ha : c.copyOf? a = none)
    (h : (c.reserve σ.arrays.size a).Mirrored σ d (σ.items a).toList ws) :
    c.Mirrored σ { d with fresh := d.fresh.setIfInBounds c.fresh.size ws.toArray } [v]
      [.array ⟨σ.arrays.size + c.fresh.size⟩] := by
  have hsize : (c.reserve σ.arrays.size a).fresh.size = c.fresh.size + 1 := Array.size_push _
  have hplace : c.fresh.size < d.fresh.size := by
    have hle := h.size
    omega
  have hself : d.copyOf? a = some ⟨σ.arrays.size + c.fresh.size⟩ :=
    h.table a _ (by rw [copyOf?_reserve, if_pos rfl])
  refine ⟨h.toGrows.fill, fun a' b ha' => ?_, fun a' b ha' => ?_, h.injective,
    .cons (.array hv hself) .nil, fun a' j hj ha' => ?_⟩
  · refine h.table a' b ?_
    rw [copyOf?_reserve, if_neg, ha']
    rintro rfl
    cases ha.symm.trans ha'
  · rcases h.added a' b ha' with hold | hnew
    · rw [copyOf?_reserve] at hold
      split at hold
      · cases hold
        exact .inr (Nat.le_refl _)
      · exact .inl hold
    · exact .inr (by omega)
  · rcases Nat.eq_or_lt_of_le hj with rfl | hlt
    · -- The number in question is that of the array itself.
      cases h.injective a a' _ hself ha'
      exact ⟨ws.toArray, Array.getElem?_setIfInBounds_self_of_lt hplace, h.values⟩
    · obtain ⟨items, hitems, hmirror⟩ := h.filled a' j (by omega) ha'
      exact ⟨items, (Array.getElem?_setIfInBounds_ne (Nat.ne_of_lt hlt)).trans hitems, hmirror⟩

end Copies

namespace Walk

variable {σ : Store} {fuel : Nat}

theorem copyAll_mirrored {copy : Value → Copies → Option (Value × Copies)}
    (hcopy : ∀ v c w d, c.Sound σ.arrays.size → c.Injective → copy v c = some (w, d) →
      c.Mirrored σ d [v] [w]) :
    ∀ vs {c ws d}, c.Sound σ.arrays.size → c.Injective → copyAll copy vs c = some (ws, d) →
    c.Mirrored σ d vs ws := by
  intro vs
  induction vs with
  | nil =>
    intro c ws d hc hinj h
    cases h
    exact .refl hc hinj .nil fun w hw => by cases hw
  | cons v vs ih =>
    intro c ws d hc hinj h
    simp only [copyAll, Option.bind_eq_bind, Option.bind_eq_some_iff, Prod.exists] at h
    obtain ⟨w, e, hw, us, d', hus, h⟩ := h
    cases h
    have hhead := hcopy v c w e hc hinj hw
    exact hhead.cons (ih hhead.sound hhead.injective hus)

/-- Every step of the walk adds to the table what it should, by induction on the levels that are
left. -/
theorem copy_mirrored (n : Nat) : ∀ v c w d, c.Sound σ.arrays.size → c.Injective →
    copy σ (σ.slot fuel) n v c = some (w, d) → c.Mirrored σ d [v] [w] := by
  induction n with
  | zero =>
    intro v c w d _ _ h
    cases h
  | succ n ih =>
    intro v c w d hc hinj h
    have hcopied := (copy_grows (n + 1) v c w d hc h).copied
    simp only [copy, Option.bind_eq_bind, Option.bind_eq_some_iff] at h
    obtain ⟨u, hu, h⟩ := h
    have hv : σ.ResolvesTo v u := ⟨fuel, hu⟩
    split at h
    · next a =>
      split at h
      · next b hb =>
        cases h
        exact .refl hc hinj (.cons (.array hv hb) .nil) hcopied
      · next hnone =>
        simp only [Option.bind_eq_some_iff, Prod.exists] at h
        obtain ⟨ws, e, hws, h⟩ := h
        cases h
        exact (copyAll_mirrored ih _ (hc.reserve a) (hinj.reserve hc a) hws).fill hv hnone
    · next hnot =>
      cases h
      exact .refl hc hinj (.cons (.leaf hv hnot) .nil) hcopied

end Walk

/-! ## 3. The table is an isomorphism

From here on the walk is forgotten: there is a table by which every array is mirrored, element by
element, by its copy in another store. -/

/-- Every array of a table is mirrored by its copy, and no two arrays have the same one. -/
structure Store.Tabled (σ τ : Store) (m : ArrayId → Option ArrayId) : Prop where
  injective : ∀ a a' b, m a = some b → m a' = some b → a = a'
  items : ∀ a b, m a = some b → List.Forall₂ (σ.Mirrors m) (σ.items a).toList (τ.items b).toList

namespace Store

variable {σ τ : Store} {m : ArrayId → Option ArrayId}

def naming (m : ArrayId → Option ArrayId) (a : ArrayId) : ArrayId := (m a).getD a

theorem naming_eq {a b : ArrayId} (h : m a = some b) : naming m a = b := by simp [naming, h]

theorem Mirrors.copyOf {x y : Value} (h : σ.Mirrors m x y) : σ.CopyOf (naming m) x y := by
  cases h with
  | array ha hb => exact ⟨_, ha, by rw [Value.rename, naming_eq hb]⟩
  | leaf hy hnot =>
    refine ⟨y, hy, ?_⟩
    cases y with
    | array a => exact absurd rfl (hnot a)
    | _ => rfl

theorem Mirrors.of_array {x y : Value} {a : ArrayId} (h : σ.Mirrors m x y)
    (hx : σ.ResolvesTo x (.array a)) :
    ∃ b, m a = some b ∧ y = .array b := by
  cases h with
  | array ha hb =>
    cases hx.unique ha
    exact ⟨_, hb, rfl⟩
  | leaf hy hnot => exact absurd (hy.unique hx) (hnot a)

theorem Tabled.size_eq (h : σ.Tabled τ m) {a b : ArrayId} (hab : m a = some b) :
    (τ.items b).size = (σ.items a).size := by
  simpa using (h.items a b hab).length_eq.symm

theorem Tabled.mirror (h : σ.Tabled τ m) {a b : ArrayId} (hab : m a = some b) {i : Nat}
    {x y : Value} (hx : (σ.items a)[i]? = some x) (hy : (τ.items b)[i]? = some y) :
    σ.Mirrors m x y := by
  obtain ⟨hi, rfl⟩ := Array.getElem?_eq_some_iff.1 hx
  obtain ⟨hj, rfl⟩ := Array.getElem?_eq_some_iff.1 hy
  exact (h.items a b hab).get (by simpa using hi) (by simpa using hj)

theorem Tabled.exists_copy (h : σ.Tabled τ m) {a b : ArrayId} (hab : m a = some b)
    {i : Nat} {x : Value} (hx : (σ.items a)[i]? = some x) :
    ∃ y, (τ.items b)[i]? = some y ∧ σ.Mirrors m x y := by
  have hi : i < (τ.items b).size := h.size_eq hab ▸ (Array.getElem?_eq_some_iff.1 hx).1
  have hy := Array.getElem?_eq_getElem hi
  exact ⟨_, hy, h.mirror hab hx hy⟩

theorem Tabled.exists_original (h : σ.Tabled τ m) {a b : ArrayId} (hab : m a = some b)
    {i : Nat} {y : Value} (hy : (τ.items b)[i]? = some y) :
    ∃ x, (σ.items a)[i]? = some x ∧ σ.Mirrors m x y := by
  have hi : i < (σ.items a).size := h.size_eq hab ▸ (Array.getElem?_eq_some_iff.1 hy).1
  have hx := Array.getElem?_eq_getElem hi
  exact ⟨_, hx, h.mirror hab hx hy⟩

/-- What the original leads to is in the table, and the copy reaches its copy. -/
theorem Tabled.reaches_of_leads (h : σ.Tabled τ m) {x : Value} {a : ArrayId} (ha : σ.Leads x a) :
    ∀ {y : Value}, σ.Mirrors m x y → ∃ b, m a = some b ∧ τ.Reaches y b := by
  induction ha with
  | self hx =>
    intro y hy
    obtain ⟨b, hb, rfl⟩ := hy.of_array hx
    exact ⟨b, hb, .self b⟩
  | item hx hmem _ ih =>
    intro y hy
    obtain ⟨b, hb, rfl⟩ := hy.of_array hx
    obtain ⟨i, hi⟩ := Array.mem_iff_getElem?.1 hmem
    obtain ⟨z, hz, hmirror⟩ := h.exists_copy hb hi
    obtain ⟨c, hc, hreach⟩ := ih hmirror
    exact ⟨c, hc, .item (Array.mem_of_getElem? hz) hreach⟩

/-- What the copy reaches is the copy of something that the original leads to. -/
theorem Tabled.leads_of_reaches (h : σ.Tabled τ m) {y : Value} {b : ArrayId} (hb : τ.Reaches y b) :
    ∀ {x : Value}, σ.Mirrors m x y → ∃ a, σ.Leads x a ∧ m a = some b := by
  induction hb with
  | self b =>
    intro x hx
    cases hx with
    | array ha hab => exact ⟨_, .self ha, hab⟩
    | leaf _ hnot => exact absurd rfl (hnot b)
  | item hmem _ ih =>
    intro x hx
    cases hx with
    | array ha hab =>
      obtain ⟨i, hi⟩ := Array.mem_iff_getElem?.1 hmem
      obtain ⟨z, hz, hmirror⟩ := h.exists_original hab hi
      obtain ⟨c, hleads, hc⟩ := ih hmirror
      exact ⟨c, .item ha (Array.mem_of_getElem? hz) hleads, hc⟩
    | leaf _ hnot => exact absurd rfl (hnot _)

/-- So the table renames what the original leads to into what the copy reaches. -/
theorem Tabled.isomorphic (h : σ.Tabled τ m) {v w : Value} (hvw : σ.Mirrors m v w) :
    σ.Isomorphic v τ w (naming m) := by
  refine ⟨⟨?_, ?_, ?_⟩, hvw.copyOf, fun a ha => ?_, fun a ha i x hx => ?_⟩
  · intro a ha
    obtain ⟨b, hb, hreach⟩ := h.reaches_of_leads ha hvw
    rw [naming_eq hb]
    exact hreach
  · intro a ha a' ha' heq
    obtain ⟨b, hb, -⟩ := h.reaches_of_leads ha hvw
    obtain ⟨b', hb', -⟩ := h.reaches_of_leads ha' hvw
    rw [naming_eq hb, naming_eq hb'] at heq
    exact h.injective a a' b hb (heq ▸ hb')
  · intro b hb
    obtain ⟨a, ha, hab⟩ := h.leads_of_reaches hb hvw
    exact ⟨a, ha, naming_eq hab⟩
  · obtain ⟨b, hb, -⟩ := h.reaches_of_leads ha hvw
    rw [naming_eq hb, h.size_eq hb]
  · obtain ⟨b, hb, -⟩ := h.reaches_of_leads ha hvw
    obtain ⟨y, hy, hmirror⟩ := h.exists_copy hb hx
    exact ⟨y, by rw [naming_eq hb, hy], hmirror.copyOf⟩

end Store

/-! ## 4. The walk ends

Every level of the walk opens an array that had no copy before, so there are no more levels than
arrays. -/

namespace Copies

def marks (c : Copies) : List ArrayId := c.made.map Prod.fst

theorem mem_marks {c : Copies} {a : ArrayId} : a ∈ c.marks ↔ ∃ b, c.copyOf? a = some b := by
  rw [← Option.isSome_iff_exists, copyOf?, List.lookup_isSome_iff]
  simp [marks]

/-- The walk can go on for `n` levels: there are fewer arrays than that without a copy. -/
structure Ready (σ : Store) (n : Nat) (c : Copies) : Prop where
  sound : c.Sound σ.arrays.size
  injective : c.Injective
  room : Walk.room σ.arrayIds c.marks < n

/-- Arrays only gain copies. -/
theorem Ready.step {σ : Store} {n : Nat} {c d : Copies} {vs ws : List Value} (hc : c.Ready σ n)
    (h : c.Mirrored σ d vs ws) : d.Ready σ n := by
  have hmarks : ∀ a ∈ c.marks, a ∈ d.marks := by
    intro a ha
    obtain ⟨b, hb⟩ := mem_marks.1 ha
    exact mem_marks.2 ⟨b, h.table a b hb⟩
  exact ⟨h.sound, h.injective, Nat.lt_of_le_of_lt (Walk.room_anti hmarks) hc.room⟩

/-- An array that gets a copy leaves one array less without one. -/
theorem Ready.reserve {σ : Store} {n : Nat} {c : Copies} {a : ArrayId} (hc : c.Ready σ (n + 1))
    (ha : a ∈ σ.arrayIds) (hnone : c.copyOf? a = none) : (c.reserve σ.arrays.size a).Ready σ n := by
  have hnew : a ∉ c.marks := by
    intro hmem
    obtain ⟨b, hb⟩ := mem_marks.1 hmem
    cases hnone.symm.trans hb
  have hless : Walk.room σ.arrayIds (c.reserve σ.arrays.size a).marks <
      Walk.room σ.arrayIds c.marks :=
    Walk.room_cons_lt ha hnew
  exact ⟨hc.sound.reserve a, hc.injective.reserve hc.sound a,
    Nat.lt_of_lt_of_le hless (Nat.le_of_lt_succ hc.room)⟩

theorem ready_empty {σ : Store} {n : Nat} (hn : Walk.room σ.arrayIds [] < n) :
    Ready σ n ⟨[], #[]⟩ :=
  ⟨⟨fun a b hb => (by cases hb), fun j items hj => (by simp at hj)⟩,
    fun a a' b ha => (by cases ha), hn⟩

end Copies

namespace Walk

variable {σ : Store} {fuel : Nat}

theorem exists_copyAll {copy : Value → Copies → Option (Value × Copies)} {P : Copies → Prop} :
    ∀ {vs : List Value} {c : Copies}, (∀ v ∈ vs, ∀ c, P c → ∃ w d, copy v c = some (w, d) ∧ P d) →
      P c → ∃ ws d, copyAll copy vs c = some (ws, d) := by
  intro vs
  induction vs with
  | nil =>
    intro c _ _
    exact ⟨[], c, rfl⟩
  | cons v vs ih =>
    intro c hcopy hc
    obtain ⟨w, d, hw, hd⟩ := hcopy v (by simp) c hc
    obtain ⟨ws, e, hws⟩ := ih (fun u hu => hcopy u (by simp [hu])) hd
    exact ⟨w :: ws, e, by simp [copyAll, hw, hws]⟩

/-- The walk ends if every element resolves and the levels are enough for the arrays without a
copy. -/
theorem exists_copy (hitems : ∀ a, ∀ v ∈ σ.items a, ∃ w, resolve (σ.slot fuel) v = some w) :
    ∀ {n : Nat} {c : Copies} {v u : Value}, c.Ready σ n → resolve (σ.slot fuel) v = some u →
      ∃ w d, copy σ (σ.slot fuel) n v c = some (w, d) := by
  intro n
  induction n with
  | zero =>
    intro c v u hc
    exact absurd hc.room (Nat.not_lt_zero _)
  | succ n ih =>
    intro c v u hc hu
    by_cases harray : ∃ a, u = .array a
    · obtain ⟨a, rfl⟩ := harray
      cases hlookup : c.made.lookup a with
      | some b => exact ⟨.array b, c, by simp [copy, hu, hlookup]⟩
      | none =>
        -- An array that has no number in the store has no elements, so nothing is left to copy.
        obtain ⟨ws, d, hws⟩ : ∃ ws d, copyAll (copy σ (σ.slot fuel) n) (σ.items a).toList
            (c.reserve σ.arrays.size a) = some (ws, d) := by
          refine exists_copyAll (P := fun d => a ∈ σ.arrayIds → d.Ready σ n) ?_
            (fun ha => hc.reserve ha hlookup)
          intro x hx d hd
          have hx := Array.mem_toList_iff.1 hx
          have hready := hd (Store.mem_arrayIds_of_mem hx)
          obtain ⟨y, hy⟩ := hitems a x hx
          obtain ⟨w, e, hw⟩ := ih hready hy
          have hmirrored := copy_mirrored n x d w e hready.sound hready.injective hw
          exact ⟨w, e, hw, fun _ => hready.step hmirrored⟩
        unfold Copies.reserve at hws
        refine ⟨.array ⟨σ.arrays.size + c.fresh.size⟩,
          { d with fresh := d.fresh.setIfInBounds c.fresh.size ws.toArray }, ?_⟩
        simp [copy, hu, hlookup, hws]
    · exact ⟨u, c, by cases u <;> simp_all [copy]⟩

end Walk

/-! ## 5. Deep copies -/

namespace Store

variable {σ τ : Store}

theorem Settled.exists_copy (hσ : σ.Settled) {v : Value} (hv : σ.Settles v) :
    ∃ bound, ∀ fuel, bound ≤ fuel → ∃ w τ, σ.copy fuel v = some (w, τ) := by
  obtain ⟨items, hitems⟩ := hσ.exists_fuel
  obtain ⟨u, m, hu⟩ := hv
  let arrays := Walk.room σ.arrayIds []
  refine ⟨max items (max (arrays + 1) m), fun fuel hfuel => ?_⟩
  have hlarge : items ≤ fuel ∧ arrays < fuel ∧ m ≤ fuel := by omega
  obtain ⟨hbound, harrays, hm⟩ := hlarge
  obtain ⟨w, d, hw⟩ := Walk.exists_copy (hitems fuel hbound) (Copies.ready_empty harrays)
    (resolve_mono hm hu)
  exact ⟨w, _, by rw [copy, hw]; rfl⟩

/-- The walk starts with an empty table, and at its end the new arrays are those of the table. -/
theorem isomorphic_of_copy {fuel : Nat} {v w : Value} (h : σ.copy fuel v = some (w, τ)) :
    ∃ f, σ.Isomorphic v τ w f := by
  simp only [copy, Option.bind_eq_bind, Option.bind_eq_some_iff, Prod.exists] at h
  obtain ⟨w', c, hc, h⟩ := h
  cases h
  have hempty := Copies.ready_empty (Nat.lt_succ_self (Walk.room σ.arrayIds []))
  have hmirrored := Walk.copy_mirrored fuel v _ w c hempty.sound hempty.injective hc
  have htabled : σ.Tabled { σ with arrays := σ.arrays ++ c.fresh } c.copyOf? := by
    refine ⟨hmirrored.injective, fun a b hab => ?_⟩
    -- The copy is numbered behind the arrays of the store, and has been filled.
    obtain ⟨i⟩ := b
    obtain ⟨j, rfl⟩ := Nat.exists_eq_add_of_le (hmirrored.sound.made a _ hab).1
    obtain ⟨items, hitems, hmirror⟩ := hmirrored.filled a j (Nat.zero_le j) hab
    have hnew : Store.items { σ with arrays := σ.arrays ++ c.fresh } ⟨σ.arrays.size + j⟩ =
      items := by
      simp only [Store.items]
      rw [Array.getElem?_append_right (Nat.le_add_right _ _), Nat.add_sub_cancel_left, hitems,
        Option.getD_some]
    rwa [hnew]
  cases hmirrored.values with
  | cons hvw _ => exact ⟨_, htabled.isomorphic hvw⟩

/-- What a copy reaches is made of new arrays without references. -/
theorem CopiedTo.fresh {w : Value} (h : σ.CopiedTo w τ) {b : ArrayId} (hb : τ.Reaches w b) :
    σ.arrays.size ≤ b.index ∧ ∀ y ∈ τ.items b, y.isReference = false := by
  have hnew := (h.bounds_of_reaches hb h.copied).1
  exact ⟨hnew, fun y hy => (h.items b hnew y hy).isReference⟩

/-- In a settled store, copying a value ends, and gives a fresh value that is isomorphic to it:
nothing that was there has changed, the copy leads to no reference and to no array that was there,
and the arrays of the original and the copy are in a bijection that keeps lengths, positions and
leaves. -/
theorem copy_fresh_and_isomorphic (σ : Store) (hσ : σ.Settled) (v : Value) (hv : σ.Settles v) :
    (∃ bound, ∀ fuel, bound ≤ fuel → ∃ w τ, σ.copy fuel v = some (w, τ)) ∧
    ∀ fuel w τ, σ.copy fuel v = some (w, τ) →
      σ.ExtendedBy τ ∧ w.isReference = false ∧
      (∀ b, τ.Reaches w b → σ.arrays.size ≤ b.index ∧ ∀ y ∈ τ.items b, y.isReference = false) ∧
      ∃ f, σ.Isomorphic v τ w f := by
  refine ⟨hσ.exists_copy hv, fun fuel w τ h => ?_⟩
  have hcopied := copiedTo_of_copy h
  exact ⟨hcopied.toExtendedBy, hcopied.copied.isReference, fun b hb => hcopied.fresh hb,
    isomorphic_of_copy h⟩

/-- An array that holds itself, and twice another array: through the variable `x`, and directly. -/
def knotted : Store where
  arrays := #[#[.array ⟨0⟩, .reference (.binding ⟨⟨0⟩, []⟩ "x"), .array ⟨1⟩], #[.int 7]]
  scopes := #[⟨[("x", .array ⟨1⟩)]⟩]
  functions := #[]

/-- The copy holds itself, and twice the one copy of the other array. -/
theorem knotted_copy :
    knotted.Settled ∧ knotted.Settles (.array ⟨0⟩) ∧
    ∃ τ, knotted.copy 9 (.array ⟨0⟩) = some (.array ⟨2⟩, τ) ∧
      τ.items ⟨2⟩ = #[.array ⟨2⟩, .array ⟨3⟩, .array ⟨3⟩] ∧ τ.items ⟨3⟩ = #[.int 7] ∧
      knotted.ExtendedBy τ ∧
      ∃ f, knotted.Isomorphic (.array ⟨0⟩) τ (.array ⟨2⟩) f := by
  have hall : knotted.allNumbers 9 = true := by decide +kernel
  have hsettled : knotted.Settled := settled_of_allNumbers hall
  have hroot : knotted.Settles (.array ⟨0⟩) := ⟨.array ⟨0⟩, resolvesTo_array ⟨0⟩⟩
  refine ⟨hsettled, hroot, _, rfl, rfl, rfl, ?_⟩
  obtain ⟨hkept, -, -, hiso⟩ :=
    (copy_fresh_and_isomorphic knotted hsettled (.array ⟨0⟩) hroot).2 9 (.array ⟨2⟩) _ rfl
  exact ⟨hkept, hiso⟩

end Store
end Scriptlet
