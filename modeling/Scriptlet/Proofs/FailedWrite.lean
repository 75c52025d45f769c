import Scriptlet.Assign
import Scriptlet.Proofs.StoreLaws

/-!
# Writes that fail change nothing

A write passes through a chain of visits: it forwards the value along stored references, or turns a
write to a part into a write to the whole.  A visit has a next one, or is refused, or is the last;
until the last one, nothing is changed but that new arrays are made.  So a write that fails fails at
a visit that is refused, or after too many visits, in the store that it had come to
(`Visit.run_eq_failed_iff`).

The error codes are those of §10.2 of the specification.  Its §4.6 and §10.6 say what a write does;
that a failed one does nothing is left open there.
-/

namespace Scriptlet

/-! ## 1. Indices and computations -/

/-- Indices fit a word without a sign, also those that are read off large floats. -/
theorem Number.index?_lt {n : Number} {i : Nat} (h : n.index? = some i) : i < 1 <<< 64 := by
  cases n with
  | int m =>
    simp only [Number.index?] at h
    split at h
    · cases h
      have hle := Int64.toInt_lt m
      omega
    · cases h
  | float x =>
    simp only [Number.index?] at h
    split at h
    · cases h
      exact Nat.lt_of_le_of_lt (Nat.min_le_right _ _) (by decide)
    · cases h

theorem Store.toIndex_lt {σ : Store} {fuel i : Nat} {v : Value}
    (h : σ.toIndex fuel v = some (some i)) :
    i < 1 <<< 64 := by
  obtain ⟨n, -, hn⟩ := Option.map_eq_some_iff.1 h
  exact Number.index?_lt hn

/-- How many elements or characters a value has; what is unset counts as an empty array. -/
def Store.length? (σ : Store) : Value → Option Nat
  | .array a => some (σ.items a).size
  | .str s => some s.length
  | .invalid => some 0
  | _ => none

theorem Eval.look_bind {α β : Type} {f : Store → Option α} {g : α → Eval β} {σ : Store} {x : α}
    (h : f σ = some x) :
    (Eval.look f >>= g) σ = g x σ := by
  simp only [bind, Eval.look, h]

theorem Eval.look_bind_none {α β : Type} {f : Store → Option α} {g : α → Eval β} {σ : Store}
    (h : f σ = none) :
    (Eval.look f >>= g) σ = .exhausted := by
  simp only [bind, Eval.look, h]

/-- A plain value is passed on to a stored reference, and anything else goes to the location
itself. -/
theorem Eval.forward_or_last (o : Option Value) (v : Value) (next : Reference → Eval Unit)
    (last : Eval Unit) :
    (∃ t, o = some (.reference t) ∧ v.isReference = false) ∨
      (match o, v.isReference with
        | some (.reference t), false => next t
        | _, _ => last) = last := by
  split
  · next t hv => exact .inl ⟨t, rfl, hv⟩
  · exact .inr rfl

def Outcome.failure? {α : Type} : Outcome α → Option (RuntimeError × Store)
  | .failed e τ => some (e, τ)
  | _ => none

theorem Outcome.failure?_eq_some {α : Type} {o : Outcome α} {e : RuntimeError} {τ : Store}
    (h : o.failure? = some (e, τ)) : o = .failed e τ := by
  cases o with
  | failed e' τ' =>
    cases h
    rfl
  | _ => cases h

/-! ## 2. Visits

A write visits locations one after the other, and each visit is refused, is the last one, or passes
a value on to the next. -/

/-- A write under way: the store it has come to, and what it is to write where. -/
structure Visit where
  store : Store
  target : Reference
  value : Value

namespace Visit

inductive Next (fuel : Nat) : Visit → Visit → Prop
  | binding {σ : Store} {env : Env} {x : String} {t : Reference} {v : Value} :
      σ.lookup env x = some (.reference t) → v.isReference = false →
      Next fuel ⟨σ, .binding env x, v⟩ ⟨σ, t, v⟩
  | cell {σ : Store} {base t : Reference} {index v : Value} {a : ArrayId} {i : Nat} :
      σ.toIndex fuel index = some (some i) → σ.read fuel base = some (.array a) →
      (σ.items a)[i]? = some (.reference t) → v.isReference = false →
      Next fuel ⟨σ, .element base index, v⟩ ⟨σ, t, v⟩
  | character {σ : Store} {base : Reference} {index v : Value} {s text : String} {i : Nat} :
      σ.toIndex fuel index = some (some i) → σ.read fuel base = some (.str s) →
      ¬ (s.length ≤ i ∧ growthLimit ≤ i) → σ.display fuel v = some text →
      Next fuel ⟨σ, .element base index, v⟩ ⟨σ, base, .str (replaceChar s i text)⟩
  | vacancy {σ : Store} {base : Reference} {index v : Value} {i : Nat} :
      σ.toIndex fuel index = some (some i) → σ.read fuel base = some .invalid → ¬ growthLimit ≤ i →
      Next fuel ⟨σ, .element base index, v⟩
        ⟨(σ.newArray (putElement #[] i v)).2, base, .array (σ.newArray (putElement #[] i v)).1⟩

inductive Refused (fuel : Nat) : Visit → Fault → Prop
  | direct {σ : Store} {u v : Value} : Refused fuel ⟨σ, .direct u, v⟩ (.notAssignable u.typeName)
  | index {σ : Store} {base : Reference} {index v : Value} {text : String} :
      σ.toIndex fuel index = some none →
      σ.display fuel index = some text →
      Refused fuel ⟨σ, .element base index, v⟩ (.invalidIndex text)
  | growth {σ : Store} {base : Reference} {index u v : Value} {i n : Nat} :
      σ.toIndex fuel index = some (some i) →
      σ.read fuel base = some u → σ.length? u = some n → n ≤ i → growthLimit ≤ i →
      Refused fuel ⟨σ, .element base index, v⟩ (.pastGrowthLimit i growthLimit)
  | whole {σ : Store} {base : Reference} {index u v : Value} {i : Nat} :
      σ.toIndex fuel index = some (some i) →
      σ.read fuel base = some u → σ.length? u = none →
      Refused fuel ⟨σ, .element base index, v⟩ (.notIndexable u.typeName)

/-- So many visits lead from one to another. -/
inductive Chain (fuel : Nat) : Nat → Visit → Visit → Prop
  | refl (a : Visit) : Chain fuel 0 a a
  | step {k : Nat} {a b c : Visit} : Next fuel a b → Chain fuel k b c → Chain fuel (k + 1) a c

/-- The rest of a write that may still make so many visits. -/
def run (fuel budget : Nat) (a : Visit) : Outcome Unit :=
  Eval.writeWithin fuel budget a.target a.value a.store

variable {fuel budget : Nat} {a b : Visit}

/-- A visit with a next one does nothing else. -/
theorem run_next (h : Next fuel a b) : run fuel (budget + 1) a = run fuel budget b := by
  cases h with
  | binding hlookup hv => simp only [run, Eval.writeWithin, bind, Eval.view, hlookup, hv]
  | cell hindex hbase hcell hv =>
    simp only [run, Eval.writeWithin, bind, Eval.look, Eval.view, hindex, hbase, hcell, hv]
  | @character σ base index v s text i hindex hbase hgrowth htext =>
    calc run fuel (budget + 1) ⟨σ, .element base index, v⟩
      _ = _ := (Eval.look_bind hindex).trans (Eval.look_bind hbase)
      _ = _ := congrFun (if_neg hgrowth) σ
      _ = run fuel budget ⟨σ, base, .str (replaceChar s i text)⟩ := Eval.look_bind htext
  | @vacancy σ base index v i hindex hbase hgrowth =>
    calc run fuel (budget + 1) ⟨σ, .element base index, v⟩
      _ = _ := (Eval.look_bind hindex).trans (Eval.look_bind hbase)
      _ = _ := congrFun (if_neg hgrowth) σ

/-- A visit that is refused ends the write where it is. -/
theorem run_refused {fault : Fault} (h : Refused fuel a fault) :
    run fuel (budget + 1) a = .failed (.unplaced fault) a.store := by
  cases h with
  | direct => rfl
  | index hindex htext => exact (Eval.look_bind hindex).trans (Eval.look_bind htext)
  | @growth σ base index u v i n hindex hbase hlength hle hlimit =>
    refine (Eval.look_bind hindex).trans ((Eval.look_bind hbase).trans ?_)
    cases u with
    | array c =>
      cases hlength
      -- There is no element at the index, so no reference to pass the value on to.
      have hnone : (σ.items c)[i]? = none := Array.getElem?_eq_none hle
      simp only [bind, Eval.view, hnone]
      exact congrFun (if_pos ⟨hle, hlimit⟩) σ
    | str s =>
      cases hlength
      exact congrFun (if_pos ⟨hle, hlimit⟩) σ
    | invalid => exact congrFun (if_pos hlimit) σ
    | _ => cases hlength
  | @whole σ base index u v i hindex hbase hlength =>
    refine (Eval.look_bind hindex).trans ((Eval.look_bind hbase).trans ?_)
    cases u with
    | array c => cases hlength
    | str s => cases hlength
    | invalid => cases hlength
    | _ => rfl

/-- A variable that holds no reference gets the value. -/
theorem run_binding {σ : Store} {env : Env} {x : String}
    (h : ∀ t, σ.lookup env x ≠ some (.reference t)) (v : Value) :
    run fuel (budget + 1) ⟨σ, .binding env x, v⟩ = .done () (σ.set env x v) := by
  refine congrFun ((Eval.forward_or_last _ v _ _).resolve_left ?_) σ
  rintro ⟨t, ht, -⟩
  exact h t ht

theorem Chain.snoc {k : Nat} {c : Visit} (h : Chain fuel k a b) (hnext : Next fuel b c) :
    Chain fuel (k + 1) a c := by
  induction h with
  | refl a => exact .step hnext (.refl c)
  | step hfirst _ ih => exact .step hfirst (ih hnext)

/-- Along a chain, every visit uses up one of those that may be made. -/
theorem run_chain {k : Nat} (h : Chain fuel k a b) (budget : Nat) :
    run fuel (k + budget) a = run fuel budget b := by
  induction h with
  | refl a => rw [Nat.zero_add]
  | @step k a b c hnext _ ih =>
    rw [Nat.add_right_comm, run_next hnext]
    exact ih

/-- A write goes on from where its first visits lead, with as many visits left. -/
theorem write_of_chain {k : Nat} (h : Chain fuel k a b) (hk : k ≤ hopLimit) :
    Eval.write fuel a.target a.value a.store = run fuel ((hopLimit - k) + 1) b := by
  have hbudget : hopLimit + 1 = k + ((hopLimit - k) + 1) := by omega
  calc Eval.write fuel a.target a.value a.store
    _ = run fuel (k + ((hopLimit - k) + 1)) a := by rw [← hbudget]; rfl
    _ = run fuel ((hopLimit - k) + 1) b := run_chain h _

theorem write_of_long_chain (h : Chain fuel (hopLimit + 1) a b) :
    Eval.write fuel a.target a.value a.store =
      .failed (.unplaced (.chainTooDeep hopLimit)) b.store :=
  run_chain h 0

/-- A visit at which the write does not fail, however many visits it may still make. -/
def Safe (fuel : Nat) (a : Visit) : Prop := ∀ budget e τ, run fuel (budget + 1) a ≠ .failed e τ

theorem safe_of_done (h : ∀ budget, ∃ τ, run fuel (budget + 1) a = .done () τ) : Safe fuel a := by
  intro budget e τ hfailed
  obtain ⟨υ, hdone⟩ := h budget
  cases hdone.symm.trans hfailed

theorem safe_of_exhausted (h : ∀ budget, run fuel (budget + 1) a = .exhausted) : Safe fuel a := by
  intro budget e τ hfailed
  cases (h budget).symm.trans hfailed

section Cases

variable {σ : Store} {base : Reference} {index v : Value} {i : Nat}

theorem next_or_safe_of_binding (env : Env) (x : String) :
    (∃ b, Next fuel ⟨σ, .binding env x, v⟩ b) ∨ Safe fuel ⟨σ, .binding env x, v⟩ := by
  by_cases hforward : ∃ t, σ.lookup env x = some (.reference t) ∧ v.isReference = false
  · obtain ⟨t, hlookup, hv⟩ := hforward
    exact .inl ⟨_, .binding hlookup hv⟩
  · refine .inr (safe_of_done fun budget => ⟨σ.set env x v, ?_⟩)
    exact congrFun ((Eval.forward_or_last _ v _ _).resolve_left hforward) σ

theorem next_or_refused_or_safe_of_cell {c : ArrayId}
    (hindex : σ.toIndex fuel index = some (some i)) (hbase : σ.read fuel base = some (.array c)) :
    (∃ b, Next fuel ⟨σ, .element base index, v⟩ b) ∨
    (∃ fault, Refused fuel ⟨σ, .element base index, v⟩ fault) ∨
      Safe fuel ⟨σ, .element base index, v⟩ := by
  by_cases hforward : ∃ t, (σ.items c)[i]? = some (.reference t) ∧ v.isReference = false
  · obtain ⟨t, hcell, hv⟩ := hforward
    exact .inl ⟨_, .cell hindex hbase hcell hv⟩
  · by_cases hpast : (σ.items c).size ≤ i ∧ growthLimit ≤ i
    · exact .inr (.inl ⟨_, .growth hindex hbase rfl hpast.1 hpast.2⟩)
    · refine .inr (.inr (safe_of_done fun budget => ⟨σ.modifyArray c (putElement · i v), ?_⟩))
      refine (Eval.look_bind hindex).trans ((Eval.look_bind hbase).trans ?_)
      refine (congrFun ((Eval.forward_or_last _ v _ _).resolve_left hforward) σ).trans ?_
      exact congrFun (if_neg hpast) σ

theorem next_or_refused_or_safe_of_string {s : String}
    (hindex : σ.toIndex fuel index = some (some i)) (hbase : σ.read fuel base = some (.str s)) :
    (∃ b, Next fuel ⟨σ, .element base index, v⟩ b) ∨
    (∃ fault, Refused fuel ⟨σ, .element base index, v⟩ fault) ∨
      Safe fuel ⟨σ, .element base index, v⟩ := by
  by_cases hpast : s.length ≤ i ∧ growthLimit ≤ i
  · exact .inr (.inl ⟨_, .growth hindex hbase rfl hpast.1 hpast.2⟩)
  · cases htext : σ.display fuel v with
    | some text => exact .inl ⟨_, .character hindex hbase hpast htext⟩
    | none =>
      refine .inr (.inr (safe_of_exhausted fun budget => ?_))
      refine (Eval.look_bind hindex).trans ((Eval.look_bind hbase).trans ?_)
      exact (congrFun (if_neg hpast) σ).trans (Eval.look_bind_none htext)

theorem next_or_refused_or_safe_of_element :
    (∃ b, Next fuel ⟨σ, .element base index, v⟩ b) ∨
    (∃ fault, Refused fuel ⟨σ, .element base index, v⟩ fault) ∨
      Safe fuel ⟨σ, .element base index, v⟩ := by
  cases hindex : σ.toIndex fuel index with
  | none => exact .inr (.inr (safe_of_exhausted fun budget => Eval.look_bind_none hindex))
  | some o =>
    cases o with
    | none =>
      cases htext : σ.display fuel index with
      | some text => exact .inr (.inl ⟨_, .index hindex htext⟩)
      | none =>
        refine .inr (.inr (safe_of_exhausted fun budget => ?_))
        exact (Eval.look_bind hindex).trans (Eval.look_bind_none htext)
    | some i =>
      cases hbase : σ.read fuel base with
      | none =>
        refine .inr (.inr (safe_of_exhausted fun budget => ?_))
        exact (Eval.look_bind hindex).trans (Eval.look_bind_none hbase)
      | some u =>
        cases u with
        | array c => exact next_or_refused_or_safe_of_cell hindex hbase
        | str s => exact next_or_refused_or_safe_of_string hindex hbase
        | invalid =>
          by_cases hpast : growthLimit ≤ i
          · exact .inr (.inl ⟨_, .growth hindex hbase rfl i.zero_le hpast⟩)
          · exact .inl ⟨_, .vacancy hindex hbase hpast⟩
        | _ => exact .inr (.inl ⟨_, .whole hindex hbase rfl⟩)

end Cases

/-- There is no other way: a visit has a next one, is refused, or does not fail. -/
theorem next_or_refused_or_safe (fuel : Nat) (a : Visit) :
    (∃ b, Next fuel a b) ∨ (∃ fault, Refused fuel a fault) ∨ Safe fuel a := by
  obtain ⟨σ, r, v⟩ := a
  cases r with
  | direct u => exact .inr (.inl ⟨_, .direct⟩)
  | binding env x => exact (next_or_safe_of_binding env x).imp id .inr
  | element base index => exact next_or_refused_or_safe_of_element

/-! ## 3. Where a write fails

The budget counts visits, so a write that uses it up has made exactly so many. -/

/-- A write fails at a visit that is refused, or after all the visits that it may make. -/
theorem run_eq_failed_iff {e : RuntimeError} {τ : Store} : ∀ {budget : Nat} {a : Visit},
    run fuel budget a = .failed e τ ↔
      ∃ b k, Chain fuel k a b ∧ b.store = τ ∧
        (k = budget ∧ e = .unplaced (.chainTooDeep hopLimit) ∨
          k < budget ∧ ∃ fault, Refused fuel b fault ∧ e = .unplaced fault) := by
  intro budget
  induction budget with
  | zero =>
    intro a
    constructor
    · intro h
      cases h
      exact ⟨a, 0, .refl a, rfl, .inl ⟨rfl, rfl⟩⟩
    · rintro ⟨b, k, hchain, rfl, ⟨rfl, rfl⟩ | ⟨hk, -⟩⟩
      · cases hchain
        rfl
      · cases hk
  | succ budget ih =>
    intro a
    constructor
    · intro h
      rcases next_or_refused_or_safe fuel a with ⟨b, hnext⟩ | ⟨fault, hrefused⟩ | hsafe
      · rw [run_next hnext] at h
        obtain ⟨c, k, hchain, hstore, hwhy⟩ := ih.1 h
        refine ⟨c, k + 1, .step hnext hchain, hstore, ?_⟩
        rcases hwhy with ⟨rfl, he⟩ | ⟨hk, hwhy⟩
        · exact .inl ⟨rfl, he⟩
        · exact .inr ⟨Nat.succ_lt_succ hk, hwhy⟩
      · rw [run_refused hrefused] at h
        cases h
        exact ⟨a, 0, .refl a, rfl, .inr ⟨budget.succ_pos, fault, hrefused, rfl⟩⟩
      · -- At the last visit, the write is carried out, or the fuel is not enough to read what it
        -- needs.
        exact absurd h (hsafe budget e τ)
    · rintro ⟨b, k, hchain, hstore, hwhy⟩
      cases hchain with
      | refl =>
        rcases hwhy with ⟨hk, -⟩ | ⟨-, fault, hrefused, rfl⟩
        · cases hk
        · rw [run_refused hrefused, hstore]
      | @step k _ c _ hnext hchain =>
        rw [run_next hnext]
        refine ih.2 ⟨b, k, hchain, hstore, ?_⟩
        rcases hwhy with ⟨hk, he⟩ | ⟨hk, hwhy⟩
        · exact .inl ⟨Nat.succ.inj hk, he⟩
        · exact .inr ⟨Nat.lt_of_succ_lt_succ hk, hwhy⟩

/-- On the way a write only makes arrays. -/
theorem extendedBy_of_next {σ : Store} (hσ : σ.ExtendedBy a.store) (h : Next fuel a b) :
    σ.ExtendedBy b.store := by
  cases h with
  | vacancy _ _ _ => exact hσ.newArray _
  | _ => exact hσ

theorem extendedBy_of_chain {σ : Store} {k : Nat} (hσ : σ.ExtendedBy a.store)
    (h : Chain fuel k a b) :
    σ.ExtendedBy b.store := by
  induction h with
  | refl a => exact hσ
  | step hnext _ ih => exact ih (extendedBy_of_next hσ hnext)

theorem Refused.code_mem {fault : Fault} (h : Refused fuel a fault) :
    fault.code ∈ ["R002", "R003", "R005"] := by
  cases h <;> simp [Fault.code]

end Visit

namespace Store

variable {σ τ : Store} {fuel : Nat} {r : Reference} {v : Value} {e : RuntimeError}

/-- The write has come, in at most as many visits as references are followed, to an index at or
beyond the length of what it would be written to. -/
def BeyondEnd (σ : Store) (fuel : Nat) (r : Reference) (v : Value) (ρ : Store) (i : Nat) : Prop :=
  ∃ k base index w u n, k ≤ hopLimit ∧ Visit.Chain fuel k ⟨σ, r, v⟩ ⟨ρ, .element base index, w⟩ ∧
    ρ.toIndex fuel index = some (some i) ∧ ρ.read fuel base = some u ∧ ρ.length? u = some n ∧ n ≤ i

theorem BeyondEnd.lt {ρ : Store} {i : Nat} (h : σ.BeyondEnd fuel r v ρ i) : i < 1 <<< 64 := by
  obtain ⟨k, base, index, w, u, n, -, -, hindex, -⟩ := h
  exact toIndex_lt hindex

/-- A write that fails for growth has come to an index beyond the end. -/
theorem beyondEnd_of_pastGrowthLimit {i limit : Nat} (h : Eval.write fuel r v σ = .failed e τ)
    (hfault : e.fault = .pastGrowthLimit i limit) :
    limit = growthLimit ∧ growthLimit ≤ i ∧ σ.BeyondEnd fuel r v τ i := by
  obtain ⟨b, k, hchain, rfl, ⟨-, rfl⟩ | ⟨hk, fault, hrefused, rfl⟩⟩ :=
    (Visit.run_eq_failed_iff (a := ⟨σ, r, v⟩)).1 h
  · cases hfault
  · cases hfault
    cases hrefused with
    | growth hindex hbase hlength hle hlimit =>
      exact ⟨rfl, hlimit, k, _, _, _, _, _, Nat.le_of_lt_succ hk, hchain, hindex, hbase,
        hlength, hle⟩

/-- At an index beyond the end the write fails, unless growing as far is allowed. -/
theorem fails_beyondEnd {ρ : Store} {i : Nat} (h : σ.BeyondEnd fuel r v ρ i)
    (hlimit : growthLimit ≤ i) :
    Eval.write fuel r v σ = .failed (.unplaced (.pastGrowthLimit i growthLimit)) ρ := by
  obtain ⟨k, base, index, w, u, n, hk, hchain, hindex, hbase, hlength, hle⟩ := h
  exact (Visit.run_eq_failed_iff (a := ⟨σ, r, v⟩)).2 ⟨_, k, hchain, rfl,
    .inr ⟨Nat.lt_succ_of_le hk, _, .growth hindex hbase hlength hle hlimit, rfl⟩⟩

/-- A write that fails leaves all that was there as it was.  It fails for growth only at an index
that is not below the limit and beyond the length of what it is an index of; and wherever a write
comes to an index beyond the end, it fails so, or the next index is within the limit. -/
theorem failed_write_changes_nothing (σ : Store) (fuel : Nat) (r : Reference) (v : Value) :
    (∀ e τ, Eval.write fuel r v σ = .failed e τ →
      σ.ExtendedBy τ ∧ e.code ∈ ["R002", "R003", "R005"] ∧
      ∀ i limit, e.fault = .pastGrowthLimit i limit →
        limit = 1 <<< 24 ∧ 1 <<< 24 ≤ i ∧ i < 1 <<< 64 ∧ σ.BeyondEnd fuel r v τ i) ∧
    ∀ ρ i, σ.BeyondEnd fuel r v ρ i →
      i + 1 ≤ 1 <<< 24 ∨
        Eval.write fuel r v σ = .failed (.unplaced (.pastGrowthLimit i (1 <<< 24))) ρ := by
  constructor
  · intro e τ h
    obtain ⟨b, k, hchain, rfl, hwhy⟩ := (Visit.run_eq_failed_iff (a := ⟨σ, r, v⟩)).1 h
    refine ⟨Visit.extendedBy_of_chain (.refl σ) hchain, ?_, fun i limit hfault => ?_⟩
    · rcases hwhy with ⟨-, rfl⟩ | ⟨-, fault, hrefused, rfl⟩
      · simp [RuntimeError.code, RuntimeError.unplaced, Fault.code]
      · exact hrefused.code_mem
    · obtain ⟨hlimit, hle, hbeyond⟩ := beyondEnd_of_pastGrowthLimit h hfault
      exact ⟨hlimit, hle, hbeyond.lt, hbeyond⟩
  · intro ρ i hbeyond
    rcases Nat.lt_or_ge i growthLimit with hlt | hge
    · exact .inl hlt
    · exact .inr (fails_beyondEnd hbeyond hge)

/-- The first element of an element of the variable `x`, whose index is the text of a float that
fits no word. -/
def farElement : Reference := .element (.element (.binding ⟨⟨0⟩, []⟩ "x") (.str "1e300")) (.int 0)

/-- The write to an element of what is unset makes an array before it fails; the variable stays
unset. -/
theorem farElement_write_fails :
    ∃ e τ, Eval.write 9 farElement (.int 7) (empty.newScope []).2 = .failed e τ ∧
      e.fault = .pastGrowthLimit (UInt64.size - 1) growthLimit ∧ τ.items ⟨0⟩ = #[.int 7] ∧
      (empty.newScope []).2.ExtendedBy τ ∧
      (empty.newScope []).2.BeyondEnd 9 farElement (.int 7) τ (UInt64.size - 1) := by
  have heval : (Eval.write 9 farElement (.int 7) (empty.newScope []).2).failure?.map
      (fun p => (p.1.fault, p.2.items ⟨0⟩)) =
      some (.pastGrowthLimit (UInt64.size - 1) growthLimit, #[.int 7]) := by decide +kernel
  obtain ⟨⟨e, τ⟩, hfailure, hfacts⟩ := Option.map_eq_some_iff.1 heval
  obtain ⟨hfault, hitems⟩ := Prod.mk.inj hfacts
  have hwrite := Outcome.failure?_eq_some hfailure
  obtain ⟨hext, -, hgrowth⟩ :=
    (failed_write_changes_nothing (empty.newScope []).2 9 farElement (.int 7)).1 e τ hwrite
  exact ⟨e, τ, hwrite, hfault, hitems, hext, (hgrowth _ _ hfault).2.2.2⟩

end Store
end Scriptlet
