import Scriptlet.Proofs.Endings
import Scriptlet.Proofs.Unfolding
import Scriptlet.Proofs.WriteRead
import Mathlib.Data.List.Forall2

/-!
# Stores in which every reading ends

A store is grounded if following references comes to an end from all that its variables and its
arrays hold.  Then it does so from every value and every reference at all, since a reference is
built in finitely many steps on top of variables and values.  Texts end, too: an array inside itself
is not written out again, so a text opens every array at most once on each way down.  Numbers are
read off texts, and the operators are put together from these readings.

References that are values are an addition of §10.6 of the specification; without them every store
is grounded.
-/

namespace Scriptlet

/-! ## 1. Texts

A text needs fuel for each array that it opens and for each reference that it follows. -/

namespace Walk

variable {σ : Store} {slot : Reader}

/-- Fewer hops end where more do. -/
theorem exists_follow_of_le {hops hops' : Nat} (hle : hops' ≤ hops) {v w : Value}
    (h : follow slot hops v = some w) :
    ∃ w', follow slot hops' v = some w' := by
  induction hops' generalizing hops v with
  | zero => cases v <;> exact ⟨_, rfl⟩
  | succ hops' ih =>
    obtain ⟨hops, rfl⟩ : ∃ k, hops = k + 1 :=
      Nat.exists_eq_add_one.2 (Nat.lt_of_lt_of_le hops'.succ_pos hle)
    cases v with
    | reference r =>
      simp only [follow, Option.bind_eq_bind, Option.bind_eq_some_iff] at h ⊢
      obtain ⟨u, hu, hw⟩ := h
      obtain ⟨w', hw'⟩ := ih (Nat.le_of_succ_le_succ hle) hw
      exact ⟨w', u, hu, hw'⟩
    | _ => exact ⟨_, rfl⟩

theorem resolve_reference (slot : Reader) (r : Reference) :
    resolve slot (.reference r) = slot r >>= follow slot (hopLimit - 1) := rfl

theorem resolve_resolved {v w : Value} (h : resolve slot v = some w) :
    resolve slot w = resolve slot v :=
  (follow_plain (follow_isReference hopLimit h) hopLimit).trans h.symm

/-- A list of readings succeeds if every one of them does. -/
theorem mapM_eq_some_iff {α β : Type} {g : α → Option β} :
    ∀ {xs : List α} {ys : List β}, xs.mapM g = some ys ↔
      List.Forall₂ (fun x y => g x = some y) xs ys
  | [], ys => by simp [eq_comm]
  | x :: xs, ys => by
    simp only [List.mapM_cons, Option.bind_eq_bind, Option.bind_eq_some_iff, mapM_eq_some_iff,
      List.forall₂_cons_left_iff]
    constructor
    · rintro ⟨y, hy, rest, hrest, h⟩
      exact ⟨y, rest, hy, hrest, (Option.some.inj h).symm⟩
    · rintro ⟨y, rest, hy, hrest, rfl⟩
      exact ⟨y, hy, rest, hrest, rfl⟩

theorem exists_of_forall₂ {α β : Type} {R : α → β → Prop} {xs : List α} {ys : List β}
    (h : List.Forall₂ R xs ys) :
    ∀ x ∈ xs, ∃ y, R x y := by
  induction h with
  | nil => simp
  | cons hxy _ ih =>
    rintro x (_ | ⟨_, hx⟩)
    · exact ⟨_, hxy⟩
    · exact ih x hx

theorem exists_mapM {α β : Type} {g : α → Option β} :
    ∀ {xs : List α}, (∀ x ∈ xs, ∃ y, g x = some y) → ∃ ys, xs.mapM g = some ys
  | [], _ => ⟨[], rfl⟩
  | x :: xs, h => by
    obtain ⟨y, hy⟩ := h x (by simp)
    obtain ⟨ys, hys⟩ : ∃ ys, xs.mapM g = some ys := exists_mapM fun u hu => h u (by simp [hu])
    exact ⟨y :: ys, by simp [hy, hys]⟩

theorem exists_joinTexts {text : Value → Option String} {vs : List Value}
    (h : ∀ v ∈ vs, ∃ t, text v = some t) (separator : String) :
    ∃ t, joinTexts text separator vs = some t := by
  obtain ⟨ts, hts⟩ := exists_mapM h
  exact ⟨_, by rw [joinTexts, hts]; rfl⟩

/-- A text needs two steps for each array that can still be opened, and one for a reference in front
of it. -/
theorem exists_render (hitems : ∀ a, ∀ v ∈ σ.items a, ∃ w, resolve slot v = some w) :
    ∀ {n : Nat} {inner : List ArrayId} {v w : Value},
      2 * room σ.arrayIds inner + v.isReference.toNat < n →
      resolve slot v = some w → ∃ t, render σ slot n inner v = some t := by
  intro n
  induction n with
  | zero =>
    intro inner v w hroom
    exact absurd hroom (Nat.not_lt_zero _)
  | succ n ih =>
    intro inner v w hroom hw
    cases v with
    | array a =>
      simp only [render]
      split
      · exact ⟨_, rfl⟩
      · next hnew =>
        apply exists_joinTexts
        intro u hu
        rw [Array.mem_toList_iff] at hu
        obtain ⟨w', hw'⟩ := hitems a u hu
        have hless := room_cons_lt (Store.mem_arrayIds_of_mem hu) hnew
        have href : u.isReference.toNat ≤ 1 := Bool.toNat_le u.isReference
        exact ih (by omega) hw'
    | reference r =>
      have hplain : w.isReference = false := follow_isReference hopLimit hw
      have hless : 2 * room σ.arrayIds inner + w.isReference.toNat < n := by
        rw [hplain]
        exact Nat.lt_of_succ_lt_succ hroom
      obtain ⟨t, ht⟩ := ih hless (follow_plain hplain hopLimit)
      refine ⟨t, ?_⟩
      simp only [render, hw]
      exact ht
    | _ => exact ⟨_, rfl⟩

end Walk

/-! ## 2. Settled stores -/

namespace Store

variable {σ : Store}

/-- A value that is no reference resolves to itself alone. -/
theorem resolvesTo_plain {u v : Value} (hu : u.isReference = false) : σ.ResolvesTo u v ↔ v = u := by
  have hself : σ.ResolvesTo u u := ⟨0, Walk.follow_plain hu hopLimit⟩
  constructor
  · intro h
    exact h.unique hself
  · rintro rfl
    exact hself

theorem settles_of_plain {v : Value} (hv : v.isReference = false) : σ.Settles v :=
  ⟨v, (resolvesTo_plain hv).2 rfl⟩

theorem settled_of_resolves (fuel : Nat)
    (h : ∀ row ∈ σ.arrays, ∀ v ∈ row, (σ.resolve fuel v).isSome = true) : σ.Settled := by
  intro a v hv
  obtain ⟨row, hrow, hv⟩ := exists_row_of_mem hv
  obtain ⟨u, hu⟩ := Option.isSome_iff_exists.1 (h row (Array.mem_of_getElem? hrow) v hv)
  exact ⟨u, fuel, hu⟩

theorem Settles.halts {v : Value} (hv : σ.Settles v) : Walk.Halts (σ.resolve · v) := by
  obtain ⟨w, hw⟩ := hv
  exact Walk.Finds.halts hw (steady_resolve v)

/-- A reference settles if what its location holds does. -/
theorem settles_reference {r : Reference} {u : Value} (hr : Walk.Finds (σ.slot · r) u)
    (hu : σ.Settles u) :
    σ.Settles (.reference r) := by
  obtain ⟨n, hn⟩ := hr
  obtain ⟨w, m, hw⟩ := hu
  have hslot : σ.slot (max n m) r = some u := slot_mono (Nat.le_max_left n m) r u hn
  obtain ⟨w', hw'⟩ := Walk.exists_follow_of_le (Nat.sub_le hopLimit 1)
    (resolve_mono (Nat.le_max_right n m) hw)
  refine ⟨w', max n m, ?_⟩
  rw [resolve, Walk.resolve_reference, hslot]
  exact hw'

/-- The text of a value ends: the arrays that it opens on each way down are different ones. -/
theorem Settled.halts_display (hσ : σ.Settled) {v : Value} (hv : σ.Settles v) :
    Walk.Halts (σ.display · v) := by
  obtain ⟨items, hitems⟩ := hσ.exists_fuel
  obtain ⟨w, m, hw⟩ := hv
  let arrays := 2 * Walk.room σ.arrayIds []
  have hlarge : items ≤ items + m + arrays + 2 ∧ m ≤ items + m + arrays + 2 := by omega
  have hroom : 2 * Walk.room σ.arrayIds [] + v.isReference.toNat < items + m + arrays + 2 := by
    have href : v.isReference.toNat ≤ 1 := Bool.toNat_le v.isReference
    omega
  obtain ⟨t, ht⟩ := Walk.exists_render (hitems _ hlarge.1) hroom (resolve_mono hlarge.2 hw)
  exact Walk.Finds.halts ⟨_, ht⟩ fun _ _ hnm => σ.display_below hnm v

/-- Numbers are read off scalars and texts. -/
theorem Settled.halts_toNumber (hσ : σ.Settled) {v : Value} (hv : σ.Settles v) :
    Walk.Halts (σ.toNumber · v) := by
  refine .bind hv.halts fun w _ => ?_
  cases w with
  | array a =>
    have htext : Walk.Halts (σ.display · (.array a)) := hσ.halts_display (settles_of_plain rfl)
    exact .bind htext fun t _ => .pure _
  | _ => exact .pure _

/-! ## 3. Elements -/

/-- The element of a plain value at what was read as an index. -/
def elementIn (σ : Store) (v : Value) : Option Nat → Value
  | some i => σ.elementAt v i
  | none => .invalid

/-- The location of an element, in terms of the readings of its base and its index. -/
theorem slot_element (n : Nat) (base : Reference) (index : Value) :
    σ.slot (n + 1) (.element base index) = (do
      let v ← σ.read n base
      let i ← σ.toIndex n index
      return σ.elementIn v i) := by
  simp only [slot, read, toIndex, toNumber, resolve, Option.bind_eq_bind, Option.bind_assoc]
  congr 1
  funext u
  congr 1
  funext v
  cases Walk.number σ (σ.slot n) n index with
  | none => rfl
  | some k =>
    simp only [Option.bind_some, Option.map_some]
    cases k.index? <;> rfl

/-! ## 4. Grounded stores

Whatever a variable or an element holds, its chain of references comes to an end. -/

/-- Following references comes to an end from all that is stored. -/
structure Grounded (σ : Store) : Prop where
  bindings : ∀ env x v, σ.lookup env x = some v → σ.Settles v
  elements : σ.Settled

theorem mem_bindings_of_find? {s : Scope} {x : String} {v : Value} (h : s.find? x = some v) :
    (x, v) ∈ s.bindings := by
  obtain ⟨bs⟩ := s
  induction bs with
  | nil => cases h
  | cons b bs ih =>
    rw [Scope.find?, Scope.lookup_cons] at h
    split at h
    · next hx =>
      cases h
      rw [hx]
      exact List.mem_cons_self
    · exact List.mem_cons_of_mem b (ih h)

/-- A store that holds no references is grounded. -/
theorem grounded_of_plain (hscopes : ∀ s ∈ σ.scopes, ∀ b ∈ s.bindings, b.2.isReference = false)
    (harrays : ∀ row ∈ σ.arrays, ∀ v ∈ row, v.isReference = false) : σ.Grounded := by
  constructor
  · intro env x v h
    obtain ⟨s, -, hfind⟩ := List.exists_of_findSome?_eq_some h
    unfold scope at hfind
    cases hs : σ.scopes[s.index]? with
    | none =>
      rw [hs] at hfind
      cases hfind
    | some scope =>
      rw [hs] at hfind
      exact settles_of_plain (hscopes scope (Array.mem_of_getElem? hs) (x, v)
        (mem_bindings_of_find? hfind))
  · intro a v hv
    obtain ⟨row, hrow, hv⟩ := exists_row_of_mem hv
    exact settles_of_plain (harrays row (Array.mem_of_getElem? hrow) v hv)

namespace Grounded

theorem settles_lookup (hσ : σ.Grounded) (env : Env) (x : String) :
    σ.Settles ((σ.lookup env x).getD .invalid) := by
  cases hx : σ.lookup env x with
  | none => exact settles_of_plain rfl
  | some v => exact hσ.bindings env x v hx

/-- Elements of arrays settle, and so do characters and what is unset. -/
theorem settles_elementIn (hσ : σ.Grounded) (v : Value) (i : Option Nat) :
    σ.Settles (σ.elementIn v i) := by
  cases i with
  | none => exact settles_of_plain rfl
  | some i =>
    simp only [elementIn, elementAt]
    split
    · next a =>
      cases hi : (σ.items a)[i]? with
      | none => exact settles_of_plain rfl
      | some u => exact hσ.elements a u (Array.mem_of_getElem? hi)
    · split
      · exact settles_of_plain rfl
      · exact settles_of_plain rfl
    · exact settles_of_plain rfl

mutual
/-- Following references comes to an end from every value, and the location of every reference holds
something. -/
theorem settles (hσ : σ.Grounded) : ∀ v : Value, σ.Settles v
  | .reference r => by
    obtain ⟨u, hr, hu⟩ := hσ.exists_slot r
    exact settles_reference hr hu
  | .invalid | .bool _ | .int _ | .float _ | .str _ | .array _ | .function _ => settles_of_plain rfl
/-- The location of a reference holds something that settles; with `settles`, by recursion on how
the reference is built. -/
theorem exists_slot (hσ : σ.Grounded) :
    ∀ r : Reference, ∃ u, Walk.Finds (σ.slot · r) u ∧ σ.Settles u
  | .direct v => ⟨v, ⟨1, rfl⟩, hσ.settles v⟩
  | .binding env x => ⟨_, ⟨1, rfl⟩, hσ.settles_lookup env x⟩
  | .element base index => by
    obtain ⟨b, hslot, hb⟩ := hσ.exists_slot base
    have hread : Walk.Halts (σ.read · base) := by
      refine .bind (hslot.halts (steady_slot base)) fun b' hslot' => ?_
      rw [hslot'.unique (steady_slot base) hslot]
      exact hb.halts
    obtain ⟨v, n, hv⟩ := hread
    obtain ⟨i, m, hi⟩ : Walk.Halts (σ.toIndex · index) :=
      .map (hσ.elements.halts_toNumber (hσ.settles index)) _
    have hv' : σ.read (max n m) base = some v := hv _ (Nat.le_max_left n m)
    have hi' : σ.toIndex (max n m) index = some i := hi _ (Nat.le_max_right n m)
    refine ⟨σ.elementIn v i, ⟨max n m + 1, ?_⟩, hσ.settles_elementIn v i⟩
    simp only [slot_element, hv', hi']
    rfl
end

/-! ## 5. Operators

Every operator but the comparisons is made of these readings, so it ends in a grounded store. -/

variable (hσ : σ.Grounded)
include hσ

theorem halts_resolve (v : Value) : Walk.Halts (σ.resolve · v) := (hσ.settles v).halts

theorem halts_display (v : Value) : Walk.Halts (σ.display · v) :=
  hσ.elements.halts_display (hσ.settles v)

theorem halts_toNumber (v : Value) : Walk.Halts (σ.toNumber · v) :=
  hσ.elements.halts_toNumber (hσ.settles v)

theorem halts_toInt (v : Value) : Walk.Halts (σ.toInt · v) := (hσ.halts_toNumber v).map _

theorem halts_toBool (v : Value) : Walk.Halts (σ.toBool · v) := by
  refine .bind (hσ.halts_resolve v) fun w _ => ?_
  cases w with
  | str s =>
    cases hs : Numeral.read? s with
    | none => simp only [hs]; exact .pure _
    | some k => simp only [hs]; exact .pure _
  | _ => exact .pure _

theorem halts_subscript (target index : Value) : Walk.Halts (σ.subscript · target index) := by
  refine .bind (.map (hσ.halts_toNumber index) _) fun i _ => ?_
  cases i with
  | none => exact .pure _
  | some i => exact .bind (hσ.halts_resolve target) fun v _ => hσ.halts_resolve (σ.elementAt v i)

theorem halts_unaryOperand (v : Value) : Walk.Halts (σ.unaryOperand · v) := by
  refine .bind (hσ.halts_resolve v) fun w _ => ?_
  cases w with
  | array a | function f => exact .pure _
  | _ => exact hσ.halts_toNumber _

theorem halts_operand (v other : Value) : Walk.Halts (σ.operand · v other) := by
  refine .bind (hσ.halts_resolve v) fun w _ => .bind (hσ.halts_resolve other) fun u _ => ?_
  cases w with
  | array a => exact .ite (hσ.halts_toNumber _) (.pure _)
  | function f => exact .pure _
  | _ => exact hσ.halts_toNumber _

theorem halts_numeric (op : Number → Number → Number) (l r : Value) :
    Walk.Halts (σ.numeric · op l r) :=
  .bind (hσ.halts_operand l r) fun _ _ => .bind (hσ.halts_operand r l) fun _ _ => .pure _

theorem halts_bitwise (op : Int64 → Int64 → Int64) (l r : Value) :
    Walk.Halts (σ.bitwise · op l r) :=
  .bind (hσ.halts_toInt l) fun _ _ => .bind (hσ.halts_toInt r) fun _ _ => .pure _

/-- Sums end, whether they join texts or add numbers. -/
theorem halts_add (l r : Value) : Walk.Halts (σ.add · l r) := by
  refine .bind (hσ.halts_resolve l) fun x _ => .bind (hσ.halts_resolve r) fun y _ => ?_
  refine .ite ?_ (hσ.halts_numeric _ x y)
  exact .bind (hσ.halts_display x) fun _ _ => .bind (hσ.halts_display y) fun _ _ => .pure _

/-- Arithmetic on any two values comes to an end. -/
theorem halts_arith (op : ArithOp) (l r : Value) : Walk.Halts (σ.arith · op l r) := by
  cases op with
  | add => exact hσ.halts_add l r
  | sub | mul | div | mod => exact hσ.halts_numeric _ l r
  | shl | shr | bitAnd | bitOr | bitXor => exact hσ.halts_bitwise _ l r

theorem halts_identical (l r : Value) : Walk.Halts (σ.identical · l r) := by
  obtain ⟨bound, hbound⟩ := hσ.elements.exists_identical (hσ.settles l) (hσ.settles r)
  obtain ⟨t, ht⟩ := hbound bound (Nat.le_refl bound)
  exact Walk.Finds.halts ⟨bound, ht⟩ fun _ _ hnm => σ.identical_below hnm l r

/-- The order of values may not end in a store whose readings all do: an array that holds itself and
nothing else is compared with a number forever.  Where it does, so does every operator. -/
theorem halts_relation (hcompare : ∀ l r, Walk.Halts (σ.compare · l r)) (op : RelationOp)
    (l r : Value) :
    Walk.Halts (σ.relation · op l r) := by
  have hloose : Walk.Halts (σ.looseEq · l r) := by
    refine .bind (hσ.halts_resolve l) fun x _ => .bind (hσ.halts_resolve r) fun y _ => ?_
    exact .ite (.pure _) (.bind (hcompare x y) fun _ _ => .pure _)
  have hordered : ∀ accept, Walk.Halts (σ.ordered · accept l r) := by
    intro accept
    refine .bind (hσ.halts_resolve l) fun x _ => .bind (hσ.halts_resolve r) fun y _ => ?_
    exact .ite (.pure _) (.bind (hcompare l r) fun _ _ => .pure _)
  cases op with
  | eq => exact hloose
  | notEq => exact hloose.map _
  | identical => exact hσ.halts_identical l r
  | notIdentical => exact (hσ.halts_identical l r).map _
  | less | lessEq | greater | greaterEq => exact hordered _

end Grounded
end Store
end Scriptlet
