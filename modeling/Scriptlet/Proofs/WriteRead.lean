import Scriptlet.Assign
import Scriptlet.Proofs.ReadFrame

/-!
# A write overwrites the location that a read reads

Reading and writing through a reference are two walks.  Both follow the references that are stored
on their way; a read gives what the last location holds, and a write replaces it.  A write to a
character of a string, or to an element of an unset location, has no location of its own and becomes
a write to what it is a part of.

The store is closed before the write: what its values mention exists, as after every computation
that starts in a closed store.  `Store.Puts` says where a write puts what, in terms of readings of
the store before it, and `Store.Overwritten` says that nothing else changes.

References and assignment through them are §4.6 of the specification; both walks stop after 64
references (§10.6).
-/

namespace Scriptlet

/-! ## 1. Locations

Scopes and arrays are the two kinds of cells that a store has, and a write of either kind puts one
value. -/

/-- A place that holds a value: a variable of a scope, or a cell of an array. -/
inductive Location where
  | binding (s : ScopeId) (x : String)
  | cell (a : ArrayId) (i : Nat)
  deriving DecidableEq

namespace Store

def content (σ : Store) : Location → Option Value
  | .binding s x => (σ.scope s).find? x
  | .cell a i => (σ.items a)[i]?

/-- The scope or the array of a location exists. -/
def HasRoom (σ : Store) : Location → Prop
  | .binding s _ => s.index < σ.scopes.size
  | .cell a _ => a.index < σ.arrays.size

/-- The second location is a cell between the end of an array and the first location. -/
def Padding (σ : Store) : Location → Location → Prop
  | .cell a i, .cell b j => a = b ∧ (σ.items a).size ≤ j ∧ j < i
  | _, _ => False

/-- The store with a value at a location; a shorter array is filled up. -/
def put (σ : Store) (l : Location) (w : Value) : Store :=
  match l with
  | .binding s x => σ.modifyScope s (·.define x w)
  | .cell a i => σ.modifyArray a (putElement · i w)

/-- Of what `σ` has room for, one location was overwritten with `w`, and the rest is in `τ` as it
was.  The location held no reference, so all references are still in place. -/
structure Overwritten (σ τ : Store) (l : Location) (w : Value) : Prop where
  room : σ.HasRoom l
  plain : ∀ r, σ.content l ≠ some (.reference r)
  holds : τ.content l = some w
  kept : ∀ m, σ.HasRoom m → m ≠ l → ¬ σ.Padding l m → τ.content m = σ.content m
  padded : ∀ m, σ.Padding l m → τ.content m = some .invalid
  length : ∀ a i, l = .cell a i → (τ.items a).size = max (σ.items a).size (i + 1)
  growth : ∀ a i, l = .cell a i → (σ.items a).size ≤ i → i + 1 ≤ 1 <<< 24
  scopes : τ.scopes.size = σ.scopes.size
  functions : τ.functions = σ.functions

end Store

theorem Walk.follow_plain {slot : Reader} {v : Value} (hv : v.isReference = false) (hops : Nat) :
    follow slot hops v = some v := by
  cases v with
  | reference r => cases hv
  | _ => cases hops <;> rfl

theorem size_putElement (items : Array Value) (i : Nat) (w : Value) :
    (putElement items i w).size = max items.size (i + 1) := by
  unfold putElement
  split
  · rw [Array.size_setIfInBounds]
    omega
  · simp only [Array.size_push, Array.size_append, Array.size_replicate]
    omega

theorem getElem?_putElement (items : Array Value) (i j : Nat) (w : Value) :
    (putElement items i w)[j]? =
      if j = i then some w else if items.size ≤ j ∧ j < i then some .invalid else items[j]? := by
  unfold putElement
  split
  · next hi =>
    rw [Array.getElem?_setIfInBounds]
    by_cases hj : j = i
    · subst hj
      simp [hi]
    · rw [if_neg (Ne.symm hj), if_neg hj, if_neg (by omega)]
  -- Beyond the end, the array is filled up with unset values first.
  · next hi =>
    rw [Array.getElem?_push]
    simp only [Array.size_append, Array.size_replicate]
    by_cases hj : j = i
    · rw [if_pos (by omega), if_pos hj]
    · rw [if_neg (by omega), if_neg hj, Array.getElem?_append]
      by_cases hlt : j < items.size
      · rw [if_pos hlt, if_neg (by omega)]
      · rw [if_neg hlt, Array.getElem?_replicate]
        by_cases hji : j < i
        · rw [if_pos (by omega), if_pos (by omega)]
        · rw [if_neg (by omega), if_neg (by omega), Array.getElem?_eq_none (by omega)]

namespace Store

variable {σ ρ : Store}

theorem content_put_binding {s : ScopeId} (hs : s.index < ρ.scopes.size) (x : String) (w : Value)
    (m : Location) :
    (ρ.put (.binding s x) w).content m = if m = .binding s x then some w else ρ.content m := by
  cases m with
  | cell a i => rw [if_neg (by simp)]; rfl
  | binding t y =>
    simp only [put, content, scope_modifyScope, Location.binding.injEq]
    by_cases ht : t = s
    · rw [if_pos ⟨ht, hs⟩, Scope.find?_define, ht]
      simp
    · rw [if_neg (fun h => ht h.1), if_neg (fun h => ht h.1)]

theorem content_put_cell {a : ArrayId} (ha : a.index < ρ.arrays.size) (i : Nat) (w : Value)
    (m : Location) :
    (ρ.put (.cell a i) w).content m =
      match m with
      | .binding s x => ρ.content (.binding s x)
      | .cell b j => if b = a then (putElement (ρ.items a) i w)[j]? else ρ.content (.cell b j) := by
  cases m with
  | binding s x => rfl
  | cell b j =>
    simp only [put, content, items_modifyArray]
    by_cases hb : b = a
    · rw [if_pos ⟨hb, ha⟩, if_pos hb]
    · rw [if_neg (fun h => hb h.1), if_neg hb]

structure Writable (σ : Store) (l : Location) : Prop where
  room : σ.HasRoom l
  plain : ∀ r, σ.content l ≠ some (.reference r)
  growth : ∀ a i, l = .cell a i → (σ.items a).size ≤ i → i < growthLimit

theorem ExtendedBy.content (hext : σ.ExtendedBy ρ) {m : Location} (hm : σ.HasRoom m) :
    ρ.content m = σ.content m := by
  cases m with
  | binding s x => simp only [Store.content, hext.scope_eq]
  | cell a i => simp only [Store.content, hext.kept a hm]

theorem Writable.overwritten {l : Location} (hl : σ.Writable l) (hext : σ.ExtendedBy ρ)
    (w : Value) :
    σ.Overwritten (ρ.put l w) l w := by
  cases l with
  | binding s x =>
    have hroom : s.index < ρ.scopes.size := hext.scopes ▸ hl.room
    refine ⟨hl.room, hl.plain, ?_, fun m hm hne _ => ?_, fun m hm => ?_, fun _ _ h => ?_,
      fun _ _ h => ?_, ?_, hext.functions⟩
    · rw [content_put_binding hroom, if_pos rfl]
    · rw [content_put_binding hroom, if_neg hne, hext.content hm]
    · cases m <;> cases hm
    · cases h
    · cases h
    · rw [put, size_modifyScope, hext.scopes]
  | cell a i =>
    have hroom : a.index < ρ.arrays.size := Nat.lt_of_lt_of_le hl.room hext.size
    have hitems := hext.kept a hl.room
    refine ⟨hl.room, hl.plain, ?_, fun m hm hne hpad => ?_, fun m hm => ?_, fun b j h => ?_,
      fun b j h hj => ?_, congrArg Array.size hext.scopes, hext.functions⟩
    · simp [content_put_cell hroom, getElem?_putElement]
    · cases m with
      | binding s x => exact hext.content hm
      | cell b j =>
        simp only [content_put_cell hroom]
        by_cases hb : b = a
        · subst hb
          rw [if_pos rfl, getElem?_putElement, hitems, if_neg (fun h => hne (by rw [h])),
            if_neg (fun h => hpad ⟨rfl, h⟩)]
          rfl
        · rw [if_neg hb, hext.content hm]
    · cases m with
      | binding s x => cases hm
      | cell b j =>
        obtain ⟨rfl, hj⟩ := hm
        simp only [content_put_cell hroom, if_pos]
        rw [getElem?_putElement, hitems, if_neg (by omega), if_pos hj]
    · cases h
      rw [put, items_modifyArray, if_pos ⟨rfl, hroom⟩, size_putElement, hitems]
    · cases h
      exact hl.growth a i rfl hj

/-! ## 2. Where a read ends

The way of a read is unique, so a write that takes the same way ends at the same location. -/

/-- The location that a reference names: the binding that its variable has or would get, or a cell
of the array that its base reads. -/
inductive Names (σ : Store) (fuel : Nat) : Reference → Location → Prop
  | binding (env : Env) (x : String) : Names σ fuel (.binding env x) (.binding (σ.setter env x) x)
  | cell {base : Reference} {index : Value} {a : ArrayId} {i : Nat} :
      σ.read fuel base = some (.array a) → σ.toIndex fuel index = some (some i) →
      Names σ fuel (.element base index) (.cell a i)

/-- From the first reference, following `k` references that are stored at the locations named leads
to the second. -/
inductive LeadsTo (σ : Store) (fuel : Nat) : (k : Nat) → Reference → Reference → Prop
  | refl (r : Reference) : LeadsTo σ fuel 0 r r
  | follow {k : Nat} {q r t : Reference} {l : Location} : LeadsTo σ fuel k q r → σ.Names fuel r l →
      σ.content l = some (.reference t) → LeadsTo σ fuel (k + 1) q t

/-- Reading a reference ends at a location, which holds no reference, and gives what it holds; a
location that holds nothing reads as unset.  The reading takes one unit of fuel more than the
readings on its way. -/
structure Reads (σ : Store) (fuel : Nat) (q : Reference) (l : Location) : Prop where
  path : ∃ k r, k ≤ hopLimit ∧ σ.LeadsTo fuel k q r ∧ σ.Names fuel r l
  plain : ∀ r, σ.content l ≠ some (.reference r)
  value : σ.read (fuel + 1) q = some ((σ.content l).getD .invalid)

theorem Names.slot {fuel : Nat} {r : Reference} {l : Location} (h : σ.Names fuel r l) :
    σ.slot (fuel + 1) r = some ((σ.content l).getD .invalid) := by
  cases h with
  | binding env x => rw [Store.slot, lookup_eq_setter, Store.content]
  | cell hbase hindex =>
    simp only [read, resolve, Option.bind_eq_bind, Option.bind_eq_some_iff] at hbase
    obtain ⟨u, hu, hbase⟩ := hbase
    obtain ⟨n, hn, hi⟩ := Option.map_eq_some_iff.1 hindex
    rw [toNumber] at hn
    simp only [Store.slot, hu, hbase, hn, hi, Option.bind_eq_bind, Option.bind_some]
    rfl

/-- Following stored references gives what reading the one they lead to gives, as long as there are
hops left. -/
theorem LeadsTo.follow_slot {fuel k : Nat} {q r : Reference} (h : σ.LeadsTo fuel k q r)
    (hops : Nat) :
    (σ.slot (fuel + 1) q).bind (Walk.follow (σ.slot (fuel + 1)) (hops + k)) =
      (σ.slot (fuel + 1) r).bind (Walk.follow (σ.slot (fuel + 1)) hops) := by
  induction h generalizing hops with
  | refl r => rfl
  | @follow k q r t l _ hnames hcontent ih =>
    have hstep := ih (hops + 1)
    rw [Nat.add_assoc, Nat.add_comm 1 k] at hstep
    rw [hstep, hnames.slot, hcontent]
    rfl

theorem LeadsTo.reads {fuel k : Nat} {q r : Reference} {l : Location} (h : σ.LeadsTo fuel k q r)
    (hk : k ≤ hopLimit) (hnames : σ.Names fuel r l)
    (hplain : ∀ t, σ.content l ≠ some (.reference t)) :
    σ.Reads fuel q l := by
  refine ⟨⟨k, r, hk, h, hnames⟩, hplain, ?_⟩
  have hfollow := h.follow_slot (hopLimit - k)
  rw [Nat.sub_add_cancel hk, hnames.slot] at hfollow
  have hcontent : ((σ.content l).getD .invalid).isReference = false := by
    cases hl : σ.content l with
    | none => rfl
    | some v =>
      cases v with
      | reference t => exact absurd hl (hplain t)
      | _ => rfl
  rw [Option.bind_some, Walk.follow_plain hcontent] at hfollow
  exact hfollow

/-- A reference that names a location names no other. -/
theorem Names.unique {fuel : Nat} {r : Reference} {l m : Location} (h₁ : σ.Names fuel r l)
    (h₂ : σ.Names fuel r m) :
    l = m := by
  cases h₁ with
  | binding env x =>
    cases h₂
    rfl
  | cell hbase hindex =>
    cases h₂ with
    | cell hbase' hindex' =>
      cases hbase.symm.trans hbase'
      cases hindex.symm.trans hindex'
      rfl

theorem LeadsTo.deterministic {fuel k : Nat} {q r t : Reference} (h₁ : σ.LeadsTo fuel k q r)
    (h₂ : σ.LeadsTo fuel k q t) : r = t := by
  induction h₁ generalizing t with
  | refl r =>
    cases h₂
    rfl
  | follow _ hnames hcontent ih =>
    cases h₂ with
    | follow hlead' hnames' hcontent' =>
      cases ih hlead'
      cases hnames.unique hnames'
      cases hcontent.symm.trans hcontent'
      rfl

/-- Where fewer references have been followed, the next one is stored. -/
theorem LeadsTo.next {fuel j k : Nat} {q t : Reference} (h : σ.LeadsTo fuel j q t) (hkj : k < j) :
    ∃ r l u, σ.LeadsTo fuel k q r ∧ σ.Names fuel r l ∧ σ.content l = some (.reference u) := by
  induction h with
  | refl r => cases hkj
  | @follow j q r t l hlead hnames hcontent ih =>
    rcases Nat.eq_or_lt_of_le (Nat.le_of_lt_succ hkj) with rfl | hlt
    · exact ⟨r, l, t, hlead, hnames, hcontent⟩
    · exact ih hlt

/-- Nothing more is to be followed from a reference. -/
def Final (σ : Store) (fuel : Nat) (r : Reference) : Prop :=
  ∀ l, σ.Names fuel r l → ∀ t, σ.content l ≠ some (.reference t)

theorem LeadsTo.unique {fuel j k : Nat} {q r t : Reference} (hr : σ.LeadsTo fuel k q r)
    (hfinal : σ.Final fuel r) (ht : σ.LeadsTo fuel j q t) (hfinal' : σ.Final fuel t) : r = t := by
  -- From a final reference nothing is followed, so no longer way passes it.
  have hnot : ∀ {k j : Nat} {r t : Reference}, σ.LeadsTo fuel k q r → σ.Final fuel r →
      σ.LeadsTo fuel j q t → ¬ k < j := by
    intro k j r t hr hfinal ht hlt
    obtain ⟨r', l, u, hr', hnames, hcontent⟩ := ht.next hlt
    cases hr.deterministic hr'
    exact hfinal l hnames u hcontent
  have hjk : k = j := Nat.le_antisymm (Nat.not_lt.1 (hnot ht hfinal' hr))
    (Nat.not_lt.1 (hnot hr hfinal ht))
  subst hjk
  exact hr.deterministic ht

/-- A subscript of something that is no array names no location. -/
theorem final_of_read {fuel : Nat} {base : Reference} {index u : Value}
    (hu : σ.read fuel base = some u) (harray : ∀ a, u ≠ .array a) :
    σ.Final fuel (.element base index) := by
  intro l hl
  cases hl with
  | cell hbase _ => exact absurd (Option.some.inj (hu.symm.trans hbase)) (harray _)

/-! ## 3. Where a write ends

The budget of a write counts locations, so it is one more than the references that it may follow. -/

/-- Writing `v` to a reference puts `w` at the location `l`.  All is said of the store `σ` before
the write; the arrays that the write makes on its way lead from the store `ρ` to the store `ρ'`.

A reference that ends at a location gets the value itself.  A character of a string is replaced by
the text of the value, and the string is written to where it was read.  An element of an unset
location becomes the last one of a new array, which is written there. -/
inductive Puts (σ : Store) (fuel : Nat) :
    (ρ : Store) → Reference → (v : Value) → (l : Location) → (w : Value) → (ρ' : Store) → Prop
  | location {ρ : Store} {q : Reference} {v : Value} {l : Location} :
      σ.Reads fuel q l → Puts σ fuel ρ q v l v ρ
  | character {ρ ρ' : Store} {k i : Nat} {q base : Reference} {index v w : Value} {s text : String}
      {l : Location} :
      σ.LeadsTo fuel k q (.element base index) → k ≤ hopLimit →
      σ.toIndex fuel index = some (some i) →
      σ.read fuel base = some (.str s) → i < max s.length growthLimit →
      ρ.display fuel v = some text →
      Puts σ fuel ρ base (.str (replaceChar s i text)) l w ρ' → Puts σ fuel ρ q v l w ρ'
  | vacancy {ρ ρ' : Store} {k i : Nat} {q base : Reference} {index v w : Value} {l : Location} :
      σ.LeadsTo fuel k q (.element base index) → k ≤ hopLimit →
      σ.toIndex fuel index = some (some i) →
      σ.read fuel base = some .invalid → i < growthLimit →
      Puts σ fuel (ρ.newArray (putElement #[] i v)).2 base
        (.array (ρ.newArray (putElement #[] i v)).1) l w ρ' →
      Puts σ fuel ρ q v l w ρ'

/-- A write to a reference that reads a location puts the value itself there, and makes no array. -/
theorem Puts.of_reads {fuel : Nat} {ρ' : Store} {q : Reference} {v w : Value} {l m : Location}
    (h : σ.Puts fuel ρ q v l w ρ') (hm : σ.Reads fuel q m) : l = m ∧ w = v ∧ ρ' = ρ := by
  obtain ⟨j, t, -, ht, hnames⟩ := hm.path
  have hfinal : σ.Final fuel t := fun l hl => hnames.unique hl ▸ hm.plain
  cases h with
  | location hl =>
    obtain ⟨k, r, -, hr, hnames'⟩ := hl.path
    cases hr.unique (fun n hn => hnames'.unique hn ▸ hl.plain) ht hfinal
    exact ⟨hnames'.unique hnames, rfl, rfl⟩
  | character hlead _ _ hbase =>
    cases hlead.unique (final_of_read hbase nofun) ht hfinal
    cases hnames with
    | cell hbase' _ => cases hbase.symm.trans hbase'
  | vacancy hlead _ _ hbase =>
    cases hlead.unique (final_of_read hbase nofun) ht hfinal
    cases hnames with
    | cell hbase' _ => cases hbase.symm.trans hbase'

end Store

namespace Eval

variable {α β : Type} {σ τ : Store}

theorem bind_done {m : Eval α} {f : α → Eval β} {b : β} {υ : Store} (h : (m >>= f) σ = .done b υ) :
    ∃ a τ, m σ = .done a τ ∧ f a τ = .done b υ := by
  simp only [bind] at h
  cases hm : m σ with
  | done a τ =>
    rw [hm] at h
    exact ⟨a, τ, rfl, h⟩
  | failed e τ =>
    rw [hm] at h
    cases h
  | exhausted =>
    rw [hm] at h
    cases h

theorem look_bind_done {f : Store → Option α} {g : α → Eval β} {b : β}
    (h : (look f >>= g) σ = .done b τ) :
    ∃ a, f σ = some a ∧ g a σ = .done b τ := by
  obtain ⟨a, υ, ha, h⟩ := bind_done h
  unfold look at ha
  cases hf : f σ with
  | none =>
    rw [hf] at ha
    cases ha
  | some a' =>
    rw [hf] at ha
    cases ha
    exact ⟨a, rfl, h⟩

/-- How a write to a location goes on from what the location holds: a plain value is passed on to a
stored reference. -/
theorem forward_done {o : Option Value} {v : Value} (hv : v.isReference = false)
    {next : Reference → Eval Unit} {last : Eval Unit}
    (h : (match o, v.isReference with
      | some (.reference t), false => next t
      | _, _ => last) σ = .done () τ) :
    (∃ t, o = some (.reference t) ∧ next t σ = .done () τ) ∨
      (∀ t, o ≠ some (.reference t)) ∧ last σ = .done () τ := by
  rw [hv] at h
  cases o with
  | none => exact .inr ⟨nofun, h⟩
  | some u =>
    cases u with
    | reference t => exact .inl ⟨t, rfl, h⟩
    | _ => exact .inr ⟨nofun, h⟩

end Eval

namespace Store

variable {σ ρ τ : Store}

theorem room_of_names (hσ : σ.Closed) {fuel : Nat} {r : Reference} (hr : r.ClosedIn σ)
    {l : Location} (h : σ.Names fuel r l) : σ.HasRoom l := by
  cases h with
  | binding env x =>
    unfold HasRoom setter
    cases hb : σ.binder? env.chain x with
    | some s => exact lt_size_of_contains (contains_of_binder? hb)
    | none => exact hr
  | cell hbase hindex => exact hσ.read hr.1 hbase

/-- What a location of a closed store holds is closed. -/
theorem Closed.content (hσ : σ.Closed) {l : Location} {v : Value} (hv : σ.content l = some v) :
    v.ClosedIn σ := by
  cases l with
  | binding s x => exact hσ.bindings s x v hv
  | cell a i => exact hσ.items a id v (Array.mem_of_getElem? hv)

def Lands (σ : Store) (fuel : Nat) (ρ : Store) (q : Reference) (v : Value) (τ : Store) : Prop :=
  ∃ l w ρ', σ.Puts fuel ρ q v l w ρ' ∧ σ.Writable l ∧ σ.ExtendedBy ρ' ∧ τ = ρ'.put l w

theorem ExtendedBy.setter (hext : σ.ExtendedBy ρ) (env : Env) (x : String) :
    ρ.setter env x = σ.setter env x := by
  simp only [Store.setter, binder?, hext.scope_eq]

/-- Every write of a plain value that may still visit `budget` locations lands, if it succeeds.  It
may have followed stored references from `q` on. -/
def WritesLand (σ : Store) (fuel budget : Nat) : Prop :=
  ∀ {k : Nat} {q r : Reference} {v : Value} {ρ τ : Store}, σ.ExtendedBy ρ → σ.LeadsTo fuel k q r →
    k + budget ≤ hopLimit + 1 → r.ClosedIn σ → v.isReference = false →
    Eval.writeWithin fuel budget r v ρ = .done () τ → σ.Lands fuel ρ q v τ

section Write

variable {fuel budget k : Nat} {q base : Reference} {index v : Value}

/-- A location that holds no reference is written to. -/
theorem lands_of_names (hσ : σ.Closed) (hext : σ.ExtendedBy ρ) {r : Reference} {l : Location}
    (hlead : σ.LeadsTo fuel k q r) (hk : k ≤ hopLimit) (hr : r.ClosedIn σ)
    (hnames : σ.Names fuel r l) (hplain : ∀ t, σ.content l ≠ some (.reference t))
    (hgrowth : ∀ a i, l = .cell a i → (σ.items a).size ≤ i → i < growthLimit) :
    σ.Lands fuel ρ q v (ρ.put l v) :=
  ⟨l, v, ρ, .location (hlead.reads hk hnames hplain),
    ⟨room_of_names hσ hr hnames, hplain, hgrowth⟩, hext, rfl⟩

theorem WritesLand.binding {env : Env} {x : String} (ih : σ.WritesLand fuel budget) (hσ : σ.Closed)
    (hext : σ.ExtendedBy ρ) (hlead : σ.LeadsTo fuel k q (.binding env x))
    (hk : k + (budget + 1) ≤ hopLimit + 1) (hr : Reference.ClosedIn σ (.binding env x))
    (hv : v.isReference = false)
    (h : Eval.writeWithin fuel (budget + 1) (.binding env x) v ρ = .done () τ) :
    σ.Lands fuel ρ q v τ := by
  have hnames : σ.Names fuel (.binding env x) (.binding (σ.setter env x) x) := .binding env x
  have hcontent : σ.content (.binding (σ.setter env x) x) = ρ.lookup env x := by
    rw [lookup_eq_setter, hext.setter, hext.scope_eq, content]
  rcases Eval.forward_done hv h with ⟨t, ht, h⟩ | ⟨hplain, h⟩
  · have ht : σ.content (.binding (σ.setter env x) x) = some (.reference t) := hcontent.trans ht
    exact ih hext (hlead.follow hnames ht) (by omega) (hσ.content ht) hv h
  · cases h
    have hset : ρ.set env x v = ρ.put (.binding (σ.setter env x) x) v := by
      rw [set_eq, hext.setter, put]
    change σ.Lands fuel ρ q v (ρ.set env x v)
    rw [hset]
    refine lands_of_names hσ hext hlead (by omega) hr hnames (fun t ht => ?_) fun a i hl => ?_
    · exact hplain t (hcontent.symm.trans ht)
    · cases hl

theorem WritesLand.cell {a : ArrayId} {i : Nat} (ih : σ.WritesLand fuel budget) (hσ : σ.Closed)
    (hext : σ.ExtendedBy ρ) (hlead : σ.LeadsTo fuel k q (.element base index))
    (hk : k + (budget + 1) ≤ hopLimit + 1) (hr : Reference.ClosedIn σ (.element base index))
    (hv : v.isReference = false) (hbase : σ.read fuel base = some (.array a))
    (hindex : σ.toIndex fuel index = some (some i))
    (h : (match (ρ.items a)[i]?, v.isReference with
      | some (.reference t), false => Eval.writeWithin fuel budget t v
      | _, _ =>
        if (ρ.items a).size ≤ i ∧ growthLimit ≤ i then Eval.fail (.pastGrowthLimit i growthLimit)
        else Eval.alter (·.modifyArray a (putElement · i v))) ρ = .done () τ) :
    σ.Lands fuel ρ q v τ := by
  have hnames : σ.Names fuel (.element base index) (.cell a i) := .cell hbase hindex
  have hitems : ρ.items a = σ.items a := hext.kept a (hσ.read hr.1 hbase)
  have hcontent : σ.content (.cell a i) = (ρ.items a)[i]? := by rw [hitems, content]
  rcases Eval.forward_done hv h with ⟨t, ht, h⟩ | ⟨hplain, h⟩
  · have ht : σ.content (.cell a i) = some (.reference t) := hcontent.trans ht
    exact ih hext (hlead.follow hnames ht) (by omega) (hσ.content ht) hv h
  · by_cases hpast : (ρ.items a).size ≤ i ∧ growthLimit ≤ i
    · rw [if_pos hpast] at h
      cases h
    · rw [if_neg hpast] at h
      cases h
      refine lands_of_names hσ hext hlead (by omega) hr hnames (fun t ht => ?_) fun b j hl hj => ?_
      · exact hplain t (hcontent.symm.trans ht)
      · cases hl
        rw [hitems] at hpast
        omega

theorem WritesLand.character {s : String} {i : Nat} (ih : σ.WritesLand fuel budget)
    (hext : σ.ExtendedBy ρ) (hlead : σ.LeadsTo fuel k q (.element base index))
    (hk : k + (budget + 1) ≤ hopLimit + 1) (hr : Reference.ClosedIn σ (.element base index))
    (hbase : σ.read fuel base = some (.str s)) (hindex : σ.toIndex fuel index = some (some i))
    (h : (if s.length ≤ i ∧ growthLimit ≤ i then Eval.fail (.pastGrowthLimit i growthLimit)
      else do
        let text ← Eval.look (·.display fuel v)
        Eval.writeWithin fuel budget base (.str (replaceChar s i text))) ρ = .done () τ) :
    σ.Lands fuel ρ q v τ := by
  by_cases hpast : s.length ≤ i ∧ growthLimit ≤ i
  · rw [if_pos hpast] at h
    cases h
  · rw [if_neg hpast] at h
    obtain ⟨text, htext, h⟩ := Eval.look_bind_done h
    -- The string is written to the base, from where no stored reference has been followed yet.
    obtain ⟨l, w, ρ', hputs, hl, hext', hτ⟩ := ih hext (.refl base) (by omega) hr.1 rfl h
    exact ⟨l, w, ρ', .character hlead (by omega) hindex hbase (by omega) htext hputs, hl, hext', hτ⟩

theorem WritesLand.vacancy {i : Nat} (ih : σ.WritesLand fuel budget)
    (hext : σ.ExtendedBy ρ) (hlead : σ.LeadsTo fuel k q (.element base index))
    (hk : k + (budget + 1) ≤ hopLimit + 1) (hr : Reference.ClosedIn σ (.element base index))
    (hbase : σ.read fuel base = some .invalid) (hindex : σ.toIndex fuel index = some (some i))
    (h : (if growthLimit ≤ i then Eval.fail (.pastGrowthLimit i growthLimit)
      else do
        let a ← Eval.fresh (·.newArray (putElement #[] i v))
        Eval.writeWithin fuel budget base (.array a)) ρ = .done () τ) :
    σ.Lands fuel ρ q v τ := by
  by_cases hpast : growthLimit ≤ i
  · rw [if_pos hpast] at h
    cases h
  · rw [if_neg hpast] at h
    obtain ⟨l, w, ρ', hputs, hl, hext', hτ⟩ :=
      ih (hext.newArray (putElement #[] i v)) (.refl base) (by omega) hr.1 rfl h
    exact ⟨l, w, ρ', .vacancy hlead (by omega) hindex hbase (Nat.not_le.1 hpast) hputs,
      hl, hext', hτ⟩

theorem WritesLand.element (ih : σ.WritesLand fuel budget) (hσ : σ.Closed) (hext : σ.ExtendedBy ρ)
    (hlead : σ.LeadsTo fuel k q (.element base index)) (hk : k + (budget + 1) ≤ hopLimit + 1)
    (hr : Reference.ClosedIn σ (.element base index)) (hv : v.isReference = false)
    (h : Eval.writeWithin fuel (budget + 1) (.element base index) v ρ = .done () τ) :
    σ.Lands fuel ρ q v τ := by
  obtain ⟨o, hindex, h⟩ := Eval.look_bind_done h
  rw [hext.toIndex hσ hr.2] at hindex
  cases o with
  -- no index, no write
  | none =>
    obtain ⟨_, _, h⟩ := Eval.look_bind_done h
    cases h
  | some i =>
    obtain ⟨u, hbase, h⟩ := Eval.look_bind_done h
    rw [hext.read hσ hr.1] at hbase
    cases u with
    | array a => exact ih.cell hσ hext hlead hk hr hv hbase hindex h
    | str s => exact ih.character hext hlead hk hr hbase hindex h
    | invalid => exact ih.vacancy hext hlead hk hr hbase hindex h
    | bool _ | int _ | float _ | function _ | reference _ => cases h

end Write

theorem writesLand (hσ : σ.Closed) (fuel budget : Nat) : σ.WritesLand fuel budget := by
  induction budget with
  | zero =>
    intro k q r v ρ τ _ _ _ _ _ h
    cases h
  | succ budget ih =>
    intro k q r v ρ τ hext hlead hk hr hv h
    cases r with
    | direct u => cases h
    | binding env x => exact ih.binding hσ hext hlead hk hr hv h
    | element base index => exact ih.element hσ hext hlead hk hr hv h

/-- Putting a value at a location of `σ` leaves the arrays alone that are newer. -/
theorem items_put {l : Location} (hl : σ.HasRoom l) {w : Value} {a : ArrayId}
    (ha : σ.arrays.size ≤ a.index) :
    (ρ.put l w).items a = ρ.items a := by
  cases l with
  | binding s x => rfl
  | cell b i =>
    rw [put, items_modifyArray, if_neg]
    rintro ⟨rfl, -⟩
    exact Nat.not_lt.2 ha hl

/-- A write that succeeds overwrites one location of the store, and nothing else.  If reading the
reference reads a location, it is that one, and it gets the value. -/
theorem write_overwrites_location_read {σ τ : Store} (hσ : σ.Closed) {r : Reference}
    (hr : r.ClosedIn σ) {v : Value} (hv : v.isReference = false) {fuel : Nat}
    (hwrite : Eval.write fuel r v σ = .done () τ) :
    ∃ l w ρ, σ.Overwritten τ l w ∧ σ.Puts fuel σ r v l w ρ ∧
      (∀ m, σ.Reads fuel r m → l = m ∧ w = v ∧ ρ = σ) ∧
      ∀ a, σ.arrays.size ≤ a.index → τ.items a = ρ.items a := by
  obtain ⟨l, w, ρ, hputs, hl, hext, rfl⟩ :=
    writesLand hσ fuel (hopLimit + 1) (.refl σ) (.refl r) (by omega) hr hv hwrite
  exact ⟨l, w, ρ, hl.overwritten hext w, hputs, fun m hm => hputs.of_reads hm,
    fun a ha => items_put hl.room ha⟩

/-- A variable `x` that holds an array with a string in it, and a variable `q` that refers to the
string. -/
def lettered : Store where
  arrays := #[#[.str "ab"]]
  scopes := #[⟨[("x", .array ⟨0⟩), ("q", .reference (.element (.binding ⟨⟨0⟩, []⟩ "x") (.int 0)))]⟩]
  functions := #[]

def secondLetter : Reference := .element (.binding ⟨⟨0⟩, []⟩ "q") (.int 1)

theorem lettered_closed : lettered.Closed := by
  refine ⟨⟨Nat.zero_le _, Nat.zero_le _⟩, fun s x v hv => ?_, fun a _ v hv => ?_,
    fun f => ⟨fun param hparam => ?_, fun target v hv => ?_⟩⟩
  · obtain ⟨i⟩ := s
    cases i with
    | zero =>
      rw [show lettered.scope ⟨0⟩ = ⟨_⟩ from rfl, Scope.find?, Scope.lookup_cons,
        Scope.lookup_cons] at hv
      split at hv
      · cases hv
        exact Nat.zero_lt_one
      · split at hv
        · cases hv
          exact ⟨Nat.zero_lt_one, trivial⟩
        · cases hv
    | succ i =>
      have hempty : lettered.scope ⟨i + 1⟩ = .empty := scope_of_size_le _ (Nat.le_add_left 1 i)
      rw [hempty] at hv
      cases hv
  · obtain ⟨i⟩ := a
    cases i with
    | zero =>
      rw [show lettered.items ⟨0⟩ = #[.str "ab"] from rfl, Array.mem_singleton] at hv
      rw [hv]
      trivial
    | succ i =>
      have hempty : lettered.items ⟨i + 1⟩ = #[] := items_of_size_le _ (Nat.le_add_left 1 i)
      rw [hempty] at hv
      simp at hv
  · simp [function, lettered, Function.absent] at hparam
  · simp [function, lettered, Function.absent] at hv

/-- Writing to a letter through `q` replaces the string in the array that `x` holds. -/
theorem lettered_write :
    lettered.Closed ∧ secondLetter.ClosedIn lettered ∧ (Value.int 7).isReference = false ∧
    ∃ τ, Eval.write 9 secondLetter (.int 7) lettered = .done () τ ∧ τ.items ⟨0⟩ = #[.str "a7"] ∧
    ∃ l w ρ, lettered.Overwritten τ l w ∧ lettered.Puts 9 lettered secondLetter (.int 7) l w ρ ∧
      (∀ m, lettered.Reads 9 secondLetter m → l = m ∧ w = .int 7 ∧ ρ = lettered) ∧
      ∀ a, lettered.arrays.size ≤ a.index → τ.items a = ρ.items a := by
  have hclosed : secondLetter.ClosedIn lettered := ⟨Nat.zero_lt_one, trivial⟩
  exact ⟨lettered_closed, hclosed, rfl, _, rfl, by decide +kernel,
    write_overwrites_location_read lettered_closed hclosed rfl rfl⟩

end Store
end Scriptlet
