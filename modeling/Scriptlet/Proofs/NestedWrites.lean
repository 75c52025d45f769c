import Scriptlet.Proofs.CompoundAssignment
import Scriptlet.Proofs.ConfinedRuns
import Scriptlet.Proofs.FailedWrite

/-!
# Writes to nested subscripts where no references are stored

A write to an element of what is unset, or to a character of a string, becomes a write to the whole,
and counts as one more visit.  So a write can make more visits than it may without following a
single reference: if none is stored, it fails as too deep exactly if each of its 65 outermost
subscripts is applied to something unset or to a string.  In particular, nested subscripts of an
unset variable make nested arrays, as long as there are at most 64 of them.

The limit of 64 is that of §10.6 of the specification, which speaks of chains of references only.
-/

namespace Scriptlet

/-! ## 1. Stores without references

In such a store a reading follows nothing, so fuel is spent on texts and indices only. -/

namespace Store

/-- No variable and no array holds a reference. -/
structure Plain (σ : Store) : Prop where
  bindings : ∀ (s : ScopeId) (x : String) (v : Value), (σ.scope s).find? x = some v →
    v.isReference = false
  elements : ∀ (a : ArrayId) (i : Nat) (v : Value), (σ.items a)[i]? = some v → v.isReference = false

namespace Plain

variable {σ ρ : Store}

/-- The value of a variable is bound in the scope that a write to the variable would change. -/
theorem lookup (hσ : σ.Plain) {env : Env} {x : String} {v : Value} (h : σ.lookup env x = some v) :
    v.isReference = false := by
  rw [lookup_eq_setter] at h
  exact hσ.bindings _ x v h

/-- Where no references are stored, nothing has to be followed. -/
theorem grounded (hσ : σ.Plain) : σ.Grounded := by
  constructor
  · intro env x v h
    exact settles_of_plain (hσ.lookup h)
  · intro a v hv
    obtain ⟨i, hi⟩ := Array.mem_iff_getElem?.1 hv
    exact settles_of_plain (hσ.elements a i v hi)

/-- A new array holds the value that is written, and is unset in front of it. -/
theorem newArray (hσ : σ.Plain) {v : Value} (hv : v.isReference = false) (i : Nat) :
    (σ.newArray (putElement #[] i v)).2.Plain := by
  constructor
  · exact hσ.bindings
  · intro a j w hw
    rw [items_newArray] at hw
    split at hw
    · rw [getElem?_putElement] at hw
      split at hw
      · cases hw
        exact hv
      · split at hw
        · cases hw
          rfl
        · simp at hw
    · exact hσ.elements a j w hw

theorem set (hσ : σ.Plain) (env : Env) (x : String) {v : Value} (hv : v.isReference = false) :
    (σ.set env x v).Plain := by
  rw [set_eq]
  constructor
  · intro s y w hw
    rw [scope_modifyScope] at hw
    split at hw
    · rw [Scope.find?_define] at hw
      split at hw
      · cases hw
        exact hv
      · exact hσ.bindings _ y w hw
    · exact hσ.bindings s y w hw
  · exact hσ.elements

/-- The text of a plain value is read off the arrays alone. -/
theorem render_eq {τ : Store} (hσ : σ.Plain) (harrays : τ.arrays = σ.arrays)
    (hfunctions : τ.functions = σ.functions) (slot slot' : Reader) (n : Nat) :
    ∀ (inner : List ArrayId) (v : Value), v.isReference = false →
      Walk.render τ slot' n inner v = Walk.render σ slot n inner v := by
  have hitems : ∀ a, τ.items a = σ.items a := by
    intro a
    rw [items, items, harrays]
  induction n with
  | zero =>
    intro inner v _
    rfl
  | succ n ih =>
    intro inner v hv
    cases v with
    | array a =>
      simp only [Walk.render, hitems]
      split
      · rfl
      · apply joinTexts_congr
        intro w hw
        obtain ⟨i, hi⟩ := Array.mem_iff_getElem?.1 (Array.mem_toList_iff.1 hw)
        exact ih _ w (hσ.elements a i w hi)
    | reference r => cases hv
    | function f => simp only [Walk.render, Walk.plainText, functionText, function, hfunctions]
    | _ => rfl

/-- So is the index that a plain value stands for. -/
theorem toIndex_eq {τ : Store} (hσ : σ.Plain) (harrays : τ.arrays = σ.arrays)
    (hfunctions : τ.functions = σ.functions) {v : Value} (hv : v.isReference = false) (n : Nat) :
    τ.toIndex n v = σ.toIndex n v := by
  have hrender := hσ.render_eq harrays hfunctions (σ.slot n) (τ.slot n) n [] v hv
  simp only [toIndex, toNumber, Walk.number, Walk.resolve, Walk.follow_plain hv,
    Option.bind_eq_bind, Option.bind_some]
  cases v with
  | array a => rw [hrender]
  | _ => rfl

/-- What is found in nested arrays is found in every store that keeps what they hold. -/
theorem unfolds {τ : Store} (hσ : σ.Plain)
    (hkept : ∀ (a : ArrayId) (i : Nat) (x : Value), (σ.items a)[i]? = some x →
      (τ.items a)[i]? = some x)
    {u v : Value} {path : List Nat} (h : σ.Unfolds u path v) (hu : u.isReference = false) :
    τ.Unfolds u path v := by
  induction h with
  | here hv =>
    rw [resolvesTo_plain hu] at hv
    exact .here ((resolvesTo_plain hu).2 hv)
  | @item u x w a i path ha hx _ ih =>
    rw [resolvesTo_plain hu] at ha
    exact .item ((resolvesTo_plain hu).2 ha) (hkept a i x hx) (ih (hσ.elements a i x hx))

end Plain
end Store

/-! ## 2. Writes that are too deep

A write is a chain of visits.  Without references to follow, each visit but the first comes from a
subscript of the location. -/

def Reference.subscripts : Reference → List (Reference × Value)
  | .element base index => (base, index) :: base.subscripts
  | _ => []

namespace Store

variable {σ ρ : Store}

/-- A write to the element is a write to the whole: this is unset or a string, and the index is one
that it may have. -/
def WritesWhole (σ : Store) (base : Reference) (index : Value) : Prop :=
  ∃ i u, Walk.Finds (σ.toIndex · index) (some i) ∧ Walk.Finds (σ.read · base) u ∧
    (u = .invalid ∧ i < growthLimit ∨ ∃ s, u = .str s ∧ i < max s.length growthLimit)

/-- Where no references are stored, a write goes on only from elements to wholes. -/
theorem subscripts_of_chain (hσ : σ.Closed) {fuel k : Nat} {a b : Visit}
    (h : Visit.Chain fuel k a b) (hext : σ.ExtendedBy a.store) (hr : a.target.ClosedIn σ)
    (hplain : a.store.Plain) (hv : a.value.isReference = false) :
    k ≤ a.target.subscripts.length ∧ ∀ p ∈ a.target.subscripts.take k, σ.WritesWhole p.1 p.2 := by
  induction h with
  | refl a => simp
  | step hnext _ ih =>
    cases hnext with
    | binding hlookup _ => exact absurd (hplain.lookup hlookup) (by simp [Value.isReference])
    | cell _ _ hcell _ => exact absurd (hplain.elements _ _ _ hcell) (by simp [Value.isReference])
    | @character τ base index v s text i hindex hbase hgrowth htext =>
      rw [hext.toIndex hσ hr.2] at hindex
      rw [hext.read hσ hr.1] at hbase
      have hwhole : σ.WritesWhole base index :=
        ⟨i, _, ⟨fuel, hindex⟩, ⟨fuel, hbase⟩, .inr ⟨s, rfl, by omega⟩⟩
      obtain ⟨hle, hall⟩ := ih hext hr.1 hplain rfl
      exact ⟨Nat.succ_le_succ hle, List.forall_mem_cons.2 ⟨hwhole, hall⟩⟩
    | @vacancy τ base index v i hindex hbase hgrowth =>
      rw [hext.toIndex hσ hr.2] at hindex
      rw [hext.read hσ hr.1] at hbase
      have hwhole : σ.WritesWhole base index :=
        ⟨i, _, ⟨fuel, hindex⟩, ⟨fuel, hbase⟩, .inl ⟨rfl, by omega⟩⟩
      obtain ⟨hle, hall⟩ := ih (hext.newArray _) hr.1 (hplain.newArray hv i) rfl
      exact ⟨Nat.succ_le_succ hle, List.forall_mem_cons.2 ⟨hwhole, hall⟩⟩

/-- And every such subscript makes a visit, given enough fuel to read it. -/
theorem exists_chain_of_subscripts (hσ : σ.Closed) (k : Nat) {r : Reference} {v : Value}
    (hext : σ.ExtendedBy ρ) (hr : r.ClosedIn σ) (hplain : ρ.Plain) (hv : v.isReference = false)
    (hk : k ≤ r.subscripts.length) (hall : ∀ p ∈ r.subscripts.take k, σ.WritesWhole p.1 p.2) :
    ∃ bound, ∀ n, bound ≤ n → ∃ b, Visit.Chain n k ⟨ρ, r, v⟩ b := by
  induction k generalizing ρ r v with
  | zero => exact ⟨0, fun n _ => ⟨_, .refl _⟩⟩
  | succ k ih =>
    cases r with
    | direct u => exact absurd hk (by simp [Reference.subscripts])
    | binding env x => exact absurd hk (by simp [Reference.subscripts])
    | element base index =>
      obtain ⟨hfirst, hrest⟩ := List.forall_mem_cons.1 hall
      obtain ⟨i, u, ⟨n₁, hindex⟩, ⟨n₂, hbase⟩, hwhole⟩ := hfirst
      have hindex : ∀ n, n₁ ≤ n → ρ.toIndex n index = some (some i) := by
        intro n hn
        rw [hext.toIndex hσ hr.2]
        exact σ.steady_toIndex index hn _ hindex
      have hbase : ∀ n, n₂ ≤ n → ρ.read n base = some u := by
        intro n hn
        rw [hext.read hσ hr.1]
        exact σ.steady_read base hn _ hbase
      rcases hwhole with ⟨rfl, hgrowth⟩ | ⟨s, rfl, hgrowth⟩
      · have harray : (Value.array (ρ.newArray (putElement #[] i v)).1).isReference = false := rfl
        obtain ⟨n₃, hchain⟩ :=
          ih (hext.newArray _) hr.1 (hplain.newArray hv i) harray (Nat.le_of_succ_le_succ hk) hrest
        refine ⟨n₁ + n₂ + n₃, fun n hn => ?_⟩
        obtain ⟨b, hb⟩ := hchain n (by omega)
        exact ⟨b, .step (.vacancy (hindex n (by omega)) (hbase n (by omega)) (by omega)) hb⟩
      · -- The text of the value takes fuel of its own; it is found since no references are stored.
        obtain ⟨text, n₃, htext⟩ := hplain.grounded.halts_display v
        have hstring : (Value.str (replaceChar s i text)).isReference = false := rfl
        obtain ⟨n₄, hchain⟩ := ih hext hr.1 hplain hstring (Nat.le_of_succ_le_succ hk) hrest
        refine ⟨n₁ + n₂ + n₃ + n₄, fun n hn => ?_⟩
        obtain ⟨b, hb⟩ := hchain n (by omega)
        exact ⟨b, .step (.character (hindex n (by omega)) (hbase n (by omega)) (by omega)
          (htext n (by omega))) hb⟩

/-- Every other reason to refuse a write has a code of its own. -/
theorem code_ne_of_refused {fuel : Nat} {a : Visit} {fault : Fault}
    (h : Visit.Refused fuel a fault) :
    fault.code ≠ "R005" := by
  cases h <;> simp [Fault.code]

/-- A write in a store without references fails as too deep exactly if its 65 outermost subscripts
are all applied to something unset or to strings. -/
theorem too_deep_iff (hσ : σ.Closed) (hplain : σ.Plain) {r : Reference}
    (hr : r.ClosedIn σ) {v : Value} (hv : v.isReference = false) :
    (∃ e τ, Eval.Ends (Eval.write · r v) σ (.failed e τ) ∧ e.code = "R005") ↔
      hopLimit < r.subscripts.length ∧
      ∀ p ∈ r.subscripts.take (hopLimit + 1), σ.WritesWhole p.1 p.2 := by
  constructor
  · rintro ⟨e, τ, ⟨-, n, hwrite⟩, hcode⟩
    obtain ⟨b, k, hchain, -, ⟨rfl, -⟩ | ⟨-, fault, hrefused, rfl⟩⟩ :=
      (Visit.run_eq_failed_iff (a := ⟨σ, r, v⟩)).1 hwrite
    · exact subscripts_of_chain hσ hchain (.refl σ) hr hplain hv
    -- A refusal has another code.
    · exact absurd hcode (code_ne_of_refused hrefused)
  · rintro ⟨hlength, hall⟩
    obtain ⟨n, hchain⟩ := exists_chain_of_subscripts hσ (hopLimit + 1)
      (.refl σ) hr hplain hv hlength hall
    obtain ⟨b, hb⟩ := hchain n (Nat.le_refl n)
    exact ⟨_, _, ⟨nofun, n, Visit.write_of_long_chain hb⟩, rfl⟩

end Store

/-! ## 3. Nested arrays

If the location is below an unset variable, all of its subscripts are applied to something unset. -/

/-- The element that subscripts lead to, one after the other. -/
def Reference.path (root : Reference) : List Value → Reference
  | [] => root
  | i :: is => (Reference.element root i).path is

theorem Reference.path_append (root : Reference) (is js : List Value) :
    root.path (is ++ js) = (root.path is).path js := by
  induction is generalizing root with
  | nil => rfl
  | cons i is ih => exact ih (.element root i)

namespace Store

variable {σ ρ τ : Store} {env : Env} {x : String} {root : Reference} {u v : Value} {is : List Value}
  {ks : List Nat}

/-- A plain value that stands for an index within the limit. -/
structure IndexIn (σ : Store) (i : Value) (k : Nat) : Prop where
  plain : i.isReference = false
  finds : Walk.Finds (σ.toIndex · i) (some k)
  lt : k < 1 <<< 24

/-- What subscripts are applied to, and the subscripts, are closed if the element is. -/
theorem closed_of_path (h : (root.path is).ClosedIn σ) :
    root.ClosedIn σ ∧ ∀ i ∈ is, i.ClosedIn σ := by
  induction is generalizing root with
  | nil => exact ⟨h, by simp⟩
  | cons i is ih =>
    obtain ⟨⟨hroot, hi⟩, his⟩ := ih h
    exact ⟨hroot, List.forall_mem_cons.2 ⟨hi, his⟩⟩

theorem finds_read_plain_element {i : Value} {k : Nat} (hroot : Walk.Finds (σ.read · root) u)
    (hi : Walk.Finds (σ.toIndex · i) (some k)) (hplain : (σ.elementAt u k).isReference = false) :
    Walk.Finds (σ.read · (.element root i)) (σ.elementAt u k) :=
  (finds_read_element root i _).2 ⟨u, hroot, some k, hi, (resolvesTo_plain hplain).2 rfl⟩

/-- Nothing is found below what is unset. -/
theorem finds_read_path_of_unset (his : List.Forall₂ σ.IndexIn is ks)
    (hroot : Walk.Finds (σ.read · root) .invalid) :
    Walk.Finds (σ.read · (root.path is)) .invalid := by
  induction his generalizing root with
  | nil => exact hroot
  | cons hi _ ih => exact ih (finds_read_plain_element hroot hi.finds rfl)

/-- What is found in nested arrays is read by subscripts. -/
theorem finds_read_path (hτ : τ.Plain)
    (his : List.Forall₂ (fun i k => Walk.Finds (τ.toIndex · i) (some k)) is ks)
    (hroot : Walk.Finds (τ.read · root) u) (hu : u.isReference = false) (h : τ.Unfolds u ks v) :
    Walk.Finds (τ.read · (root.path is)) v := by
  induction his generalizing root u with
  | nil =>
    cases h with
    | here hv =>
      rw [(resolvesTo_plain hu).1 hv]
      exact hroot
  | @cons i k is ks hi _ ih =>
    cases h with
    | @item _ w _ a _ _ ha hw hrest =>
      have hplain : w.isReference = false := hτ.elements a k w hw
      have helement : τ.elementAt (.array a) k = w := by
        rw [elementAt, hw]
        rfl
      rw [← (resolvesTo_plain hu).1 ha] at hroot
      have hnext := finds_read_plain_element hroot hi (helement ▸ hplain)
      rw [helement] at hnext
      exact ih hnext hplain hrest

/-- An array that holds something is not the new one. -/
theorem getElem?_newArray {a : ArrayId} {i : Nat} {items : Array Value}
    (h : (ρ.items a)[i]? = some v) :
    ((ρ.newArray items).2.items a)[i]? = some v := by
  rw [items_newArray, if_neg, h]
  rintro rfl
  have hempty : ρ.items (ρ.newArray items).1 = #[] := ρ.items_of_size_le (Nat.le_refl _)
  rw [hempty] at h
  simp at h

/-- The visits of a write to nested subscripts of what is unset.  Each makes an array, from the
innermost one outwards, and the value is found in them. -/
theorem exists_nest (hσ : σ.Closed) (his : List.Forall₂ σ.IndexIn is ks)
    (hv : v.isReference = false) (hext : σ.ExtendedBy ρ) (hplain : ρ.Plain)
    (hclosed : (root.path is).ClosedIn σ) (hunset : Walk.Finds (σ.read · root) .invalid) :
    ∃ ρ' u bound, σ.ExtendedBy ρ' ∧ ρ'.Plain ∧ u.isReference = false ∧ ρ'.Unfolds u ks v ∧
      ∀ n, bound ≤ n → Visit.Chain n is.length ⟨ρ, root.path is, v⟩ ⟨ρ', root, u⟩ := by
  induction his generalizing root with
  | nil =>
    exact ⟨ρ, v, 0, hext, hplain, hv, .here ((resolvesTo_plain hv).2 rfl), fun n _ => .refl _⟩
  | @cons i k is ks hi _ ih =>
    have helement : Walk.Finds (σ.read · (.element root i)) .invalid :=
      finds_read_plain_element hunset hi.finds rfl
    obtain ⟨hroot, his⟩ := closed_of_path hclosed
    obtain ⟨ρ', u, bound, hext', hplain', hu, hunfolds, hchain⟩ := ih hclosed helement
    obtain ⟨n₁, hindex⟩ := hi.finds
    obtain ⟨n₂, hread⟩ := hunset
    -- The array for the outermost subscript is made last, around those for the others.
    have hnew := hext'.newArray (putElement #[] k u)
    have hplainNew := hplain'.newArray hu k
    refine ⟨_, .array (ρ'.newArray (putElement #[] k u)).1, bound + n₁ + n₂, hnew, hplainNew, rfl,
      ?_, fun n hn => ?_⟩
    · have hcell : ((ρ'.newArray (putElement #[] k u)).2.items
          (ρ'.newArray (putElement #[] k u)).1)[k]? = some u := by
        rw [items_newArray, if_pos rfl, getElem?_putElement, if_pos rfl]
      have hinner : (ρ'.newArray (putElement #[] k u)).2.Unfolds u ks v :=
        hplain'.unfolds (fun _ _ _ => getElem?_newArray) hunfolds hu
      exact .item ((resolvesTo_plain rfl).2 rfl) hcell hinner
    · refine (hchain n (by omega)).snoc (.vacancy ?_ ?_ ?_)
      · rw [hext'.toIndex hσ (his i List.mem_cons_self)]
        exact σ.steady_toIndex i (by omega) _ hindex
      · rw [hext'.read hσ hroot]
        exact σ.steady_read root (by omega) _ hread
      · exact Nat.not_le.2 hi.lt

theorem finds_read_unset (hx : σ.lookup env x = none) :
    Walk.Finds (σ.read · (.binding env x)) .invalid := by
  have hone : σ.read 1 (.binding env x) = some .invalid := by
    rw [read, slot, hx]
    rfl
  exact ⟨1, hone⟩

/-- An unset variable is bound in the innermost scope, where it is found first. -/
theorem lookup_set_of_unset (hx : σ.lookup env x = none) (henv : env.here.index < σ.scopes.size)
    (v : Value) :
    (σ.set env x v).lookup env x = some v := by
  have hbinder : σ.setter env x = env.here := by
    unfold setter
    cases hs : σ.binder? env.chain x with
    | none => rfl
    | some s =>
      obtain ⟨w, hw⟩ := Scope.contains_iff.1 (contains_of_binder? hs)
      rw [lookup_eq, hs, Option.bind_some, hw] at hx
      cases hx
  rw [set_eq, hbinder, lookup, Env.chain, List.findSome?_cons, scope_modifyScope,
    if_pos ⟨rfl, henv⟩, Scope.find?_define, if_pos rfl]

/-- Up to 64 subscripts of an unset variable make nested arrays, from which the value is read
back. -/
theorem nested_write_builds (hσ : σ.Closed) (hplain : σ.Plain)
    (hr : ((Reference.binding env x).path is).ClosedIn σ) (hx : σ.lookup env x = none)
    (his : List.Forall₂ σ.IndexIn is ks) (hle : is.length ≤ hopLimit) (hv : v.isReference = false) :
    ∃ τ u, Eval.Ends (Eval.write · ((Reference.binding env x).path is) v) σ (.done () τ) ∧
      τ.lookup env x = some u ∧
      τ.Unfolds u ks v ∧ Walk.Finds (τ.read · ((Reference.binding env x).path is)) v := by
  obtain ⟨henv, hclosed⟩ := closed_of_path hr
  obtain ⟨ρ, u, bound, hext, hplain', hu, hunfolds, hchain⟩ :=
    exists_nest hσ his hv (.refl σ) hplain hr (finds_read_unset hx)
  have hlookup : ρ.lookup env x = none := by
    simp only [lookup, hext.scope_eq]
    exact hx
  have hwrite : Eval.write bound ((Reference.binding env x).path is) v σ =
      .done () (ρ.set env x u) := by
    apply (Visit.write_of_chain (hchain bound (Nat.le_refl bound)) hle).trans
    exact Visit.run_binding (by simp [hlookup]) u
  have hset : (ρ.set env x u).lookup env x = some u :=
    lookup_set_of_unset hlookup (hext.scopes ▸ henv) u
  have hsame : (ρ.set env x u).arrays = ρ.arrays ∧ (ρ.set env x u).functions = ρ.functions := by
    rw [set_eq]
    exact ⟨rfl, rfl⟩
  have hunfolds' : (ρ.set env x u).Unfolds u ks v := by
    refine hplain'.unfolds (fun a i w hw => ?_) hunfolds hu
    rw [items, hsame.1]
    exact hw
  -- The indices are plain values, so they are read off arrays that are as they were.
  have hindices : List.Forall₂
      (fun i k => Walk.Finds ((ρ.set env x u).toIndex · i) (some k)) is ks := by
    refine ((List.forall₂_and_left _ _).2 ⟨hclosed, his⟩).imp fun i k hi => ?_
    obtain ⟨n, hn⟩ := hi.2.finds
    refine ⟨n, ?_⟩
    rw [← hn]
    exact (hplain'.toIndex_eq hsame.1 hsame.2 hi.2.plain n).trans (hext.toIndex hσ hi.1)
  have hread : Walk.Finds ((ρ.set env x u).read · (.binding env x)) u := by
    have hone : (ρ.set env x u).read 1 (.binding env x) = some u := by
      rw [read, slot, hset]
      exact Walk.follow_plain hu hopLimit
    exact ⟨1, hone⟩
  exact ⟨ρ.set env x u, u, ⟨by simp, bound, hwrite⟩, hset, hunfolds',
    finds_read_path (hplain'.set env x hu) hindices hread hu hunfolds'⟩

/-- More than 64 subscripts of an unset variable are too deep. -/
theorem nested_write_fails (hσ : σ.Closed) (hplain : σ.Plain)
    (hr : ((Reference.binding env x).path is).ClosedIn σ) (hx : σ.lookup env x = none)
    (his : List.Forall₂ σ.IndexIn is ks) (hlt : hopLimit < is.length) (hv : v.isReference = false) :
    ∃ e τ, Eval.Ends (Eval.write · ((Reference.binding env x).path is) v) σ (.failed e τ) ∧
      e.code = "R005" ∧ σ.ExtendedBy τ := by
  -- Only the last 65 subscripts are come to.
  let cut := is.length - (hopLimit + 1)
  have hlength : (is.drop cut).length = hopLimit + 1 := by
    rw [List.length_drop]
    omega
  have hroot : Walk.Finds (σ.read · ((Reference.binding env x).path (is.take cut))) .invalid :=
    finds_read_path_of_unset (List.forall₂_take cut his) (finds_read_unset hx)
  rw [← List.take_append_drop cut is, Reference.path_append] at hr
  obtain ⟨ρ, u, bound, hext, -, -, -, hchain⟩ :=
    exists_nest hσ (List.forall₂_drop cut his) hv (.refl σ) hplain hr hroot
  rw [← Reference.path_append, List.take_append_drop, hlength] at hchain
  exact ⟨_, ρ, ⟨by simp, bound, Visit.write_of_long_chain (hchain bound (Nat.le_refl bound))⟩, rfl,
    hext⟩

/-- In a store without references, let evaluating an expression give a location.  A write of a plain
value to it fails with R005 exactly if each of its 65 outermost subscripts is applied to something
unset or to a string.  If it is an unset variable with subscripts, the write makes nested arrays,
from which the value is read back, for up to 64 subscripts, and for more of them it fails and
changes nothing. -/
theorem nested_write_fails_iff_too_deep [Host] [Host.Confined] {ρ σ : Store}
    (hρ : ρ.Closed) {env : Env} (henv : env.here.index < ρ.scopes.size) {fuel : Nat} {e : Expr}
    {r : Reference} (hlocate : Eval.locate fuel env e ρ = .done r σ) (hplain : σ.Plain) {v : Value}
    (hv : v.isReference = false) :
    ((∃ err τ, Eval.Ends (Eval.write · r v) σ (.failed err τ) ∧ err.code = "R005") ↔
      64 < r.subscripts.length ∧ ∀ p ∈ r.subscripts.take 65, σ.WritesWhole p.1 p.2) ∧
    ∀ scopes x is ks, r = (Reference.binding scopes x).path is → σ.lookup scopes x = none →
      List.Forall₂ σ.IndexIn is ks →
      (is.length ≤ 64 → ∃ τ u, Eval.Ends (Eval.write · r v) σ (.done () τ) ∧
        τ.lookup scopes x = some u ∧ τ.Unfolds u ks v ∧ Walk.Finds (τ.read · r) v) ∧
      (64 < is.length → ∃ err τ, Eval.Ends (Eval.write · r v) σ (.failed err τ) ∧
        err.code = "R005" ∧ σ.ExtendedBy τ) := by
  obtain ⟨hσ, hr⟩ := hρ.locate henv hlocate
  constructor
  · exact too_deep_iff hσ hplain hr hv
  · rintro scopes x is ks rfl hx his
    constructor
    · intro hle
      exact nested_write_builds hσ hplain hr hx his hle hv
    · intro hlt
      exact nested_write_fails hσ hplain hr hx his hlt hv

/-! ## 4. The first element of the first element -/

def bareScope : Store := (empty.newScope []).2

theorem bareScope_closed : bareScope.Closed := empty_closed.newScope []

theorem bareScope_plain : bareScope.Plain := by
  constructor
  · intro s x v h
    rw [bareScope, scope_newScope] at h
    simp [scope, empty] at h
  · intro a i v h
    simp [items, bareScope, newScope, empty] at h

def deepElement : Nat → Expr
  | 0 => .var "x" .start
  | n + 1 => .subscript (deepElement n) (.int 0 .start) .start

/-- Each subscript takes one unit of fuel. -/
theorem locate_deepElement [Host] (env : Env) (σ : Store) (n : Nat) :
    Eval.locate (n + 2) env (deepElement n) σ =
      .done ((Reference.binding env "x").path (List.replicate n (.int 0))) σ := by
  induction n with
  | zero => rfl
  | succ n ih =>
    rw [List.replicate_succ', Reference.path_append]
    exact Eval.bind_of_done ih

theorem indexIn_zeros (σ : Store) (n : Nat) :
    List.Forall₂ σ.IndexIn (List.replicate n (.int 0)) (List.replicate n 0) := by
  induction n with
  | zero => exact .nil
  | succ n ih => exact .cons ⟨rfl, ⟨0, rfl⟩, by decide⟩ ih

/-- With 64 subscripts the write builds as many arrays, and with one more it fails. -/
theorem deepElement_write :
    bareScope.Closed ∧ bareScope.Plain ∧ (Value.int 1).isReference = false ∧
    (∃ r, Eval.locate 66 ⟨⟨0⟩, []⟩ (deepElement 64) bareScope = .done r bareScope ∧
      ∃ τ u, Eval.Ends (Eval.write · r (.int 1)) bareScope (.done () τ) ∧
        τ.lookup ⟨⟨0⟩, []⟩ "x" = some u ∧
        τ.Unfolds u (List.replicate 64 0) (.int 1) ∧ Walk.Finds (τ.read · r) (.int 1)) ∧
    ∃ r, Eval.locate 67 ⟨⟨0⟩, []⟩ (deepElement 65) bareScope = .done r bareScope ∧
      ∃ err τ, Eval.Ends (Eval.write · r (.int 1)) bareScope (.failed err τ) ∧ err.code = "R005" ∧
        bareScope.ExtendedBy τ := by
  have hlocate := locate_deepElement ⟨⟨0⟩, []⟩ bareScope
  have hwrite : ∀ n, _ := fun n =>
    (nested_write_fails_iff_too_deep bareScope_closed Nat.zero_lt_one (hlocate n) bareScope_plain
      (v := .int 1) rfl).2 _ "x" _ _ rfl rfl (indexIn_zeros bareScope n)
  refine ⟨bareScope_closed, bareScope_plain, rfl, ⟨_, hlocate 64, ?_⟩, _, hlocate 65, ?_⟩
  · exact (hwrite 64).1 (by simp)
  · exact (hwrite 65).2 (by simp)

/-- No reference is stored, and the assignment to 65 nested subscripts fails all the same. -/
theorem deep_assignment_fails : bareScope.Plain ∧ bareScope.lookup ⟨⟨0⟩, []⟩ "x" = none ∧
    ∃ err τ, Eval.eval 70 ⟨⟨0⟩, []⟩ (.binary .assign (deepElement 65) (.int 1 .start) .start)
      bareScope = .failed err τ ∧
        err.code = "R005" ∧ err.fault.describe = "reference chain deeper than 64" := by
  have heval : (Eval.eval 70 ⟨⟨0⟩, []⟩ (.binary .assign (deepElement 65) (.int 1 .start) .start)
      bareScope).failure?.map (fun p => (p.1.code, p.1.fault.describe)) =
        some ("R005", "reference chain deeper than 64") := by
    decide +kernel
  obtain ⟨⟨err, τ⟩, hfailure, hfacts⟩ := Option.map_eq_some_iff.1 heval
  obtain ⟨hcode, htext⟩ := Prod.mk.inj hfacts
  exact ⟨bareScope_plain, rfl, err, τ, Outcome.failure?_eq_some hfailure, hcode, htext⟩

end Store
end Scriptlet
