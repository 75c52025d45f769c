import Scriptlet.Evaluate
import Scriptlet.Proofs.Copying
import Scriptlet.Proofs.Readings

/-!
# Computations are confined by a policy

`Eval.Keeps p k m Q` says of a computation `m` that it keeps the policy `p`: from any store that
obeys it and is at least of the extent `k`, it ends in a store that obeys it and follows the first,
and its value satisfies `Q`.  There is one rule for each way to make a computation, one lemma for
each function of the evaluator, and at the end one induction on fuel for the four functions that
call each other.
-/

namespace Scriptlet

/-! ## 1. Rules

One rule for each way to put a computation together, so that the evaluator is confined if its parts
are. -/

/-- How a computation that started in `σ` may end under a policy. -/
def Outcome.Allowed {α : Type} (p : Policy) (σ : Store) (Q : Extent → α → Prop) : Outcome α → Prop
  | .done a τ => τ.Obeys p ∧ σ.Follows p τ ∧ Q τ.extent a
  | .failed _ τ => τ.Obeys p ∧ σ.Follows p τ
  | .exhausted => True

def Outcome.store? {α : Type} : Outcome α → Option Store
  | .done _ τ => some τ
  | .failed _ τ => some τ
  | .exhausted => none

theorem Outcome.Allowed.store {α : Type} {p : Policy} {σ τ : Store} {Q : Extent → α → Prop}
    {o : Outcome α} (h : o.Allowed p σ Q) (hτ : o.store? = some τ) : τ.Obeys p ∧ σ.Follows p τ := by
  cases o with
  | done a υ =>
    cases hτ
    exact ⟨h.1, h.2.1⟩
  | failed e υ =>
    cases hτ
    exact h
  | exhausted => cases hτ

namespace Eval

/-- The computation keeps the policy, and its value satisfies `Q`. -/
def Keeps {α : Type} (p : Policy) (k : Extent) (m : Eval α) (Q : Extent → α → Prop) : Prop :=
  ∀ σ, σ.Obeys p → k ≤ σ.extent → (m σ).Allowed p σ Q

section Rules

variable {α β : Type} {p : Policy} {k : Extent} {Q : Extent → α → Prop} {R : Extent → β → Prop}

/-- A computation that may start in smaller stores may start in larger ones. -/
theorem Keeps.grow {l : Extent} {m : Eval α} (h : Keeps p k m Q) (hkl : k ≤ l) : Keeps p l m Q :=
  fun σ hσ hl => h σ hσ (Extent.le_trans hkl hl)

theorem Keeps.pure {a : α} (h : ∀ l, k ≤ l → Q l a) : Keeps p k (pure a) Q :=
  fun σ hσ hk => ⟨hσ, Store.Follows.refl p σ, h _ hk⟩

/-- One computation after another.  The second one starts in the store that the first one left. -/
theorem Keeps.bind {m : Eval α} {f : α → Eval β} (hm : Keeps p k m Q)
    (hf : ∀ l a, k ≤ l → Q l a → Keeps p l (f a) R) : Keeps p k (m >>= f) R := by
  intro σ hσ hk
  have h := hm σ hσ hk
  change Outcome.Allowed p σ R (match m σ with
    | .done a τ => f a τ
    | .failed e τ => .failed e τ
    | .exhausted => .exhausted)
  cases hrun : m σ with
  | done a τ =>
    rw [hrun] at h
    obtain ⟨hτ, hστ, ha⟩ := h
    -- What `m` made is there when `f a` starts, so `f a` may mention it.
    have hfa := hf τ.extent a (Extent.le_trans hk hστ.extent) ha τ hτ (Extent.le_refl _)
    simp only []
    cases hrun' : f a τ with
    | done b υ =>
      rw [hrun'] at hfa
      exact ⟨hfa.1, hστ.trans hfa.2.1, hfa.2.2⟩
    | failed e υ =>
      rw [hrun'] at hfa
      exact ⟨hfa.1, hστ.trans hfa.2⟩
    | exhausted => trivial
  | failed e τ => rwa [hrun] at h
  | exhausted => trivial

theorem Keeps.exhausted : Keeps p k (exhausted : Eval α) Q := fun _ _ _ => trivial

theorem Keeps.fail {fault : Fault} : Keeps p k (fail fault : Eval α) Q :=
  fun σ hσ _ => ⟨hσ, Store.Follows.refl p σ⟩

theorem Keeps.failAt {line : Nat} {fault : Fault} : Keeps p k (failAt line fault : Eval α) Q :=
  fun σ hσ _ => ⟨hσ, Store.Follows.refl p σ⟩

theorem Keeps.look {f : Store → Option α}
    (h : ∀ σ a, σ.Obeys p → k ≤ σ.extent → f σ = some a → Q σ.extent a) : Keeps p k (look f) Q := by
  intro σ hσ hk
  unfold Eval.look
  cases hf : f σ with
  | none => trivial
  | some a => exact ⟨hσ, Store.Follows.refl p σ, h σ a hσ hk hf⟩

theorem Keeps.view {f : Store → α} (h : ∀ σ, σ.Obeys p → k ≤ σ.extent → Q σ.extent (f σ)) :
    Keeps p k (view f) Q :=
  fun σ hσ hk => ⟨hσ, Store.Follows.refl p σ, h σ hσ hk⟩

theorem Keeps.alter {f : Store → Store} {Q : Extent → Unit → Prop}
    (h : ∀ σ, σ.Obeys p → k ≤ σ.extent → (f σ).Obeys p ∧ σ.Follows p (f σ) ∧ Q (f σ).extent ()) :
    Keeps p k (alter f) Q :=
  fun σ hσ hk => h σ hσ hk

theorem Keeps.fresh {f : Store → α × Store}
    (h : ∀ σ, σ.Obeys p → k ≤ σ.extent →
      (f σ).2.Obeys p ∧ σ.Follows p (f σ).2 ∧ Q (f σ).2.extent (f σ).1) : Keeps p k (fresh f) Q :=
  fun σ hσ hk => h σ hσ hk

theorem Keeps.placedAt {line : Nat} {m : Eval α} (h : Keeps p k m Q) :
    Keeps p k (placedAt line m) Q := by
  intro σ hσ hk
  have hm := h σ hσ hk
  unfold Eval.placedAt
  cases hrun : m σ with
  | done a τ => rwa [hrun] at hm
  | failed e τ => rwa [hrun] at hm
  | exhausted => trivial

/-- A walk over a list keeps the policy if each of its steps does. -/
theorem Keeps.forEach {f : α → Eval β} (hR : ∀ {l m b}, l ≤ m → R l b → R m b) :
    ∀ {as : List α}, (∀ a ∈ as, Keeps p k (f a) R) →
      Keeps p k (forEach f as) (fun l bs => ∀ b ∈ bs, R l b)
  | [], _ => Keeps.pure fun l _ b hb => by cases hb
  | a :: as, h => by
    refine Keeps.bind (h a (by simp)) fun l b hl hb => ?_
    refine Keeps.bind ((Keeps.forEach hR fun a' ha' => h a' (by simp [ha'])).grow hl)
      fun m bs hm hbs => ?_
    refine Keeps.pure fun n hn c hc => ?_
    rcases List.mem_cons.1 hc with rfl | hc
    · exact hR (Extent.le_trans hm hn) hb
    · exact hR hn (hbs c hc)

/-- Reading a condition says nothing about its value. -/
theorem Keeps.test {f : Store → Option α} : Keeps p k (Eval.look f) fun _ _ => True :=
  Keeps.look fun _ _ _ _ _ => trivial

end Rules

/-! ## 2. Writing

A write of a value that is within the policy keeps it, whichever references it follows. -/

section Writing

variable {p : Policy} {k : Extent}

/-- A written array holds what it held, the new value, and what fills the gap. -/
theorem mem_putElement {items : Array Value} {i : Nat} {v w : Value}
    (h : w ∈ putElement items i v) :
    w = v ∨ w = .invalid ∨ w ∈ items := by
  unfold putElement at h
  split at h
  · rcases Array.mem_or_eq_of_mem_setIfInBounds h with hw | hw
    · exact .inr (.inr hw)
    · exact .inl hw
  · rw [Array.mem_push, Array.mem_append, Array.mem_replicate] at h
    rcases h with (hw | hw) | hw
    · exact .inr (.inr hw)
    · exact .inr (.inl hw.2)
    · exact .inl hw

/-- A closed array is never written to, because no value that is written through mentions it. -/
theorem keeps_putElement {a : ArrayId} {i : Nat} {v : Value} (ha : p.array k.arrays a)
    (hv : v.Within p k) :
    Keeps p k (alter (·.modifyArray a (putElement · i v))) fun _ _ => True := by
  refine Keeps.alter fun σ hσ hk => ⟨hσ.modifyArray a fun w hw => ?_,
    Store.follows_modifyArray (p.not_closed ha) _, trivial⟩
  rcases mem_putElement hw with rfl | rfl | hw
  · exact hv.mono hk
  · trivial
  · exact hσ.items a (p.not_closed ha) w hw

theorem keeps_newArray {items : Array Value} (h : ∀ v ∈ items, v.Within p k) :
    Keeps p k (fresh (·.newArray items)) fun l a => p.array l.arrays a :=
  Keeps.fresh fun _ hσ hk =>
    ⟨hσ.newArray fun v hv => (h v hv).mono hk, hσ.follows_newArray items, hσ.array_newArray items⟩

theorem keeps_set {env : Env} {x : String} {v : Value} (henv : p.mayBind k.scopes env.here x)
    (hv : v.Within p k) :
    Keeps p k (alter (·.set env x v)) fun _ _ => True := by
  refine Keeps.alter fun σ hσ hk => ⟨?_, Store.follows_set v (p.mayBind_mono hk.2 henv), trivial⟩
  rw [Store.set_eq]
  exact hσ.define (hv.mono hk)

theorem keeps_read {fuel : Nat} {r : Reference} (hr : r.Within p k) :
    Keeps p k (look (·.read fuel r)) fun l v => v.Within p l :=
  Keeps.look fun _ _ hσ hk hv => hσ.read (hr.mono hk) hv

/-- Writes that may still visit `budget` locations keep the policy. -/
def WritesKept (p : Policy) (fuel budget : Nat) : Prop :=
  ∀ ⦃k : Extent⦄ ⦃r : Reference⦄ ⦃v : Value⦄, r.Within p k → v.Within p k →
    Keeps p k (writeWithin fuel budget r v) fun _ _ => True

/-- A write to a variable binds it, or goes on to what its reference names. -/
theorem WritesKept.binding {fuel budget : Nat} (ih : WritesKept p fuel budget) {env : Env}
    {x : String} {v : Value} (henv : p.mayBind k.scopes env.here x) (hv : v.Within p k) :
    Keeps p k (writeWithin fuel (budget + 1) (.binding env x) v) fun _ _ => True := by
  rw [writeWithin]
  refine Keeps.bind (Q := fun l o => ∀ w, o = some w → w.Within p l)
    (Keeps.view fun σ hσ _ w hw => hσ.lookup hw) fun l o hl ho => ?_
  split
  · exact ih (ho _ rfl) (hv.mono hl)
  · exact keeps_set (p.mayBind_mono hl.2 henv) (hv.mono hl)

/-- A write to an element, by what its base reads. -/
theorem WritesKept.element {fuel budget : Nat} (ih : WritesKept p fuel budget) {base : Reference}
    {index v : Value} (hbase : base.Within p k) (hv : v.Within p k) :
    Keeps p k (writeWithin fuel (budget + 1) (.element base index) v) fun _ _ => True := by
  rw [writeWithin]
  refine Keeps.bind Keeps.test fun l₁ i hl₁ _ => ?_
  split
  · exact Keeps.bind Keeps.test fun _ _ _ _ => Keeps.fail
  · refine Keeps.bind (keeps_read (hbase.mono hl₁)) fun l₂ u hl₂ hu => ?_
    have hl := Extent.le_trans hl₁ hl₂
    split
    · -- a cell of an array, or what a reference in the cell names
      refine Keeps.bind (Q := fun _ _ => True) (Keeps.view fun _ _ _ => trivial)
        fun l₃ n hl₃ _ => ?_
      refine Keeps.bind (Q := fun l o => ∀ w, o = some w → w.Within p l)
        (Keeps.view fun σ hσ hk w hw => hσ.getElem? (p.array_mono (Extent.le_trans hl₃ hk).1 hu) hw)
        fun l₄ o hl₄ ho => ?_
      have hl₂₄ := Extent.le_trans hl₃ hl₄
      split
      · exact ih (ho _ rfl) (hv.mono (Extent.le_trans hl hl₂₄))
      · split
        · exact Keeps.fail
        · exact keeps_putElement (p.array_mono hl₂₄.1 hu) (hv.mono (Extent.le_trans hl hl₂₄))
    · -- a character: the base gets a string, which is a scalar
      split
      · exact Keeps.fail
      · refine Keeps.bind Keeps.test fun l₃ text hl₃ _ => ?_
        exact ih (hbase.mono (Extent.le_trans hl hl₃)) trivial
    · -- an element of something unset: the base gets a new array, which holds the value
      split
      · exact Keeps.fail
      · refine Keeps.bind (keeps_newArray fun w hw => ?_) fun l₃ a hl₃ ha => ?_
        · rcases mem_putElement hw with rfl | rfl | hw
          · exact hv.mono hl
          · trivial
          · simp at hw
        · exact ih (hbase.mono (Extent.le_trans hl hl₃)) ha
    · exact Keeps.fail

/-- By induction on the number of locations that may still be visited. -/
theorem writesKept (p : Policy) (fuel budget : Nat) : WritesKept p fuel budget := by
  induction budget with
  | zero =>
    intro k r v _ _
    exact Keeps.fail
  | succ budget ih =>
    intro k r v hr hv
    cases r with
    | direct w => exact Keeps.fail
    | binding env x => exact ih.binding hr hv
    | element base index => exact ih.element hr.1 hv

theorem keeps_write {fuel : Nat} {r : Reference} {v : Value} (hr : r.Within p k)
    (hv : v.Within p k) :
    Keeps p k (write fuel r v) fun _ _ => True :=
  writesKept p fuel (hopLimit + 1) hr hv

end Writing

/-! ## 3. Native code

Every native function gives back a scalar, a part of an argument, or something that it has made
itself. -/

def Confined (p : Policy) (k : Extent) (m : Eval Value) : Prop :=
  Keeps p k m fun l v => v.Within p l

section Native

variable {p : Policy} {k : Extent} {fuel : Nat}

theorem Confined.scalar {v : Value} (hv : v.isScalar = true) : Confined p k (Pure.pure v) :=
  Keeps.pure fun _ _ => Value.within_of_isScalar hv

/-- Arguments that are missing are unset, and every policy allows that. -/
theorem within_getD {o : Option Value} (h : ∀ v, o = some v → v.Within p k) :
    (o.getD .invalid).Within p k := by
  cases o with
  | none => trivial
  | some v => exact h v rfl

theorem within_getElem?_getD {args : List Value} (hargs : ∀ v ∈ args, v.Within p k) (i : Nat) :
    (args[i]?.getD .invalid).Within p k :=
  within_getD fun v hv => hargs v (List.mem_of_getElem? hv)

theorem confined_argument {args : List Value} (hargs : ∀ v ∈ args, v.Within p k) (i : Nat) :
    Confined p k (Native.argument fuel args i) :=
  Keeps.look fun _ _ hσ hk hv => hσ.resolve ((within_getElem?_getD hargs i).mono hk) hv

theorem keeps_numberArgument {args : List Value} {i : Nat} :
    Keeps p k (Native.numberArgument fuel args i) fun _ _ => True :=
  Keeps.bind Keeps.test fun _ _ _ _ => Keeps.test

theorem keeps_operandArgument {args : List Value} {i : Nat} :
    Keeps p k (Native.operandArgument fuel args i) fun _ _ => True :=
  Keeps.bind Keeps.test fun _ _ _ _ => Keeps.test

theorem keeps_arrayArgument {args : List Value} (hargs : ∀ v ∈ args, v.Within p k) {i : Nat}
    {who : String} :
    Keeps p k (Native.arrayArgument fuel args i who) fun l a => p.array l.arrays a := by
  refine Keeps.bind (confined_argument hargs i) fun l v hl hv => ?_
  split
  · exact Keeps.pure fun m hm => p.array_mono hm.1 hv
  · exact Keeps.fail

theorem keeps_functionArgument {args : List Value} {i : Nat} {who : String} :
    Keeps p k (Native.functionArgument fuel args i who) fun _ _ => True := by
  refine Keeps.bind Keeps.test fun l v hl _ => ?_
  split
  · exact Keeps.pure fun _ _ => trivial
  · exact Keeps.fail

theorem keeps_newFunction {f : Store → FunctionId × Store} (g : Store → Function)
    (hf : ∀ σ, f σ = σ.newFunction (g σ))
    (hg : ∀ σ, σ.Obeys p → k ≤ σ.extent → (g σ).Within p σ.extent) :
    Keeps p k (fresh f) fun _ _ => True := by
  refine Keeps.fresh fun σ hσ hk => ?_
  rw [hf]
  exact ⟨hσ.newFunction (hg σ hσ hk), Store.follows_newFunction p σ _, trivial⟩

/-- The function holds the bound argument, and the defaults of the parameters that are left. -/
theorem keeps_newApplied {f : FunctionId} {v : Value} (hv : v.Within p k) :
    Keeps p k (fresh (·.newApplied f v)) fun _ _ => True := by
  refine keeps_newFunction (fun σ => ⟨(σ.function f).name, (σ.function f).params.drop 1,
    .applied f v⟩)
    (fun _ => rfl) fun σ hσ hk => ⟨fun param hparam w hw => ?_, fun g w hw => ?_⟩
  · exact (hσ.functions f).default param (List.mem_of_mem_drop hparam) w hw
  · cases hw
    exact hv.mono hk

theorem keeps_newComposite {f g : FunctionId} :
    Keeps p k (fresh (·.newComposite f g)) fun _ _ => True := by
  refine keeps_newFunction (fun σ => ⟨_, (σ.function g).params, .composite f g⟩) (fun _ => rfl)
    fun σ hσ hk => ⟨fun param hparam w hw => ?_, fun h w hw => by cases hw⟩
  exact (hσ.functions g).default param hparam w hw

/-! ### Copies -/

theorem within_of_isCopy {lo : Nat} {v : Value} (hlo : p.base.arrays ≤ lo)
    (hv : v.IsCopy lo k.arrays) :
    v.Within p k := by
  cases v with
  | array a => exact p.array_mono hv.2 (p.array_new (Nat.le_trans hlo hv.1))
  | reference r => cases hv
  | _ => trivial

/-- A copy is made of new arrays, which every policy allows. -/
theorem obeys_of_copiedTo {σ τ : Store} {w : Value} (h : σ.Obeys p) (hτ : σ.CopiedTo w τ) :
    τ.Obeys p ∧ σ.Follows p τ ∧ w.Within p τ.extent := by
  have hscope := hτ.toExtendedBy.scope_eq
  have hle := hτ.toExtendedBy.extent_le
  refine ⟨⟨Extent.le_trans h.base hle, fun s x v hv => ?_, fun a ha v hv => ?_, fun f => ?_⟩,
    ⟨hle, fun a ha => hτ.kept a (h.lt_of_closed ha), fun s x hx => ?_, fun s x hx => ?_⟩,
    within_of_isCopy h.base.1 hτ.copied⟩
  · rw [hscope] at hv
    exact (h.bindings s x v hv).mono hle
  · by_cases hold : a.index < σ.arrays.size
    · rw [hτ.kept a hold] at hv
      exact (h.items a ha v hv).mono hle
    · exact within_of_isCopy h.base.1 (hτ.items a (Nat.not_lt.1 hold) v hv)
  · rw [hτ.toExtendedBy.function_eq]
    exact (h.functions f).mono hle
  · rwa [hscope]
  · rw [hscope] at hx
    exact .inl hx

theorem confined_copy {v : Value} :
    Confined p k (fun σ => match σ.copy fuel v with
      | some (w, τ) => .done w τ
      | none => .exhausted) := by
  intro σ hσ _
  dsimp only
  cases hcopy : σ.copy fuel v with
  | none => trivial
  | some wτ => exact obeys_of_copiedTo hσ (Store.copiedTo_of_copy hcopy)

/-! ### The library -/

/-- Calls keep the policy if their arguments do. -/
def CallConfined (p : Policy) (call : FunctionId → List Argument → Eval Value) : Prop :=
  ∀ k g args, (∀ a ∈ args, a.value.Within p k) → Confined p k (call g args)

end Native
end Eval

/-- The functions of a host keep every policy that their arguments and the calls that they make
keep: they reach nothing that they are not given. -/
class Host.Confined [Host] : Prop where
  run_confined {p : Policy} {call : FunctionId → List Argument → Eval Value}
    (hcall : Eval.CallConfined p call) {k : Extent} {fuel : Nat} {args : List Value}
    (hargs : ∀ v ∈ args, v.Within p k) (f : HostFunction) :
    Eval.Confined p k (Host.run call fuel f args)

namespace Eval
section Library

variable [Host] [Host.Confined] {p : Policy} {k : Extent} {fuel : Nat}
  {call : FunctionId → List Argument → Eval Value} {args : List Value}

/-- Native code is confined: that of the library by its form, and that of the host by assumption. -/
theorem confined_run (hcall : CallConfined p call) (hargs : ∀ v ∈ args, v.Within p k)
    (code : Native) :
    Confined p k (Native.run call fuel code args) := by
  cases code with
  | len =>
    refine Keeps.bind (confined_argument hargs 0) fun l v hl _ => ?_
    split
    · exact Confined.scalar rfl
    · exact Keeps.bind (Q := fun _ _ => True) (Keeps.view fun _ _ _ => trivial) fun _ _ _ _ =>
        Confined.scalar rfl
    · exact Keeps.bind Keeps.test fun _ _ _ _ => Confined.scalar rfl
  | type => exact Confined.scalar rfl
  | int | float | isNaN | isInf | sqrt =>
    exact Keeps.bind keeps_numberArgument fun _ _ _ _ => Confined.scalar rfl
  | str | bool =>
    exact Keeps.bind Keeps.test fun _ _ _ _ => Keeps.bind Keeps.test fun _ _ _ _ =>
      Confined.scalar rfl
  | abs | floor | ceil | round =>
    exact Keeps.bind keeps_numberArgument fun _ _ _ _ => Confined.scalar (Value.isScalar_ofNumber _)
  | min | max =>
    refine Keeps.bind keeps_operandArgument fun _ _ _ _ => ?_
    exact Keeps.bind keeps_operandArgument fun _ _ _ _ =>
      Confined.scalar (Value.isScalar_ofNumber _)
  | clamp =>
    refine Keeps.bind keeps_operandArgument fun _ _ _ _ => ?_
    refine Keeps.bind keeps_operandArgument fun _ _ _ _ => ?_
    exact Keeps.bind keeps_operandArgument fun _ _ _ _ =>
      Confined.scalar (Value.isScalar_ofNumber _)
  | pow =>
    refine Keeps.bind keeps_numberArgument fun _ _ _ _ => ?_
    exact Keeps.bind keeps_numberArgument fun _ _ _ _ =>
      Confined.scalar (Value.isScalar_ofNumber _)
  | push =>
    refine Keeps.bind (keeps_arrayArgument hargs) fun l a hl ha => ?_
    refine Keeps.bind (Q := fun _ _ => True) (Keeps.alter fun σ hσ hk => ?_) fun _ _ _ _ => ?_
    · refine ⟨hσ.modifyArray a fun v hv => ?_,
        Store.follows_modifyArray (p.not_closed ha) _, trivial⟩
      rcases Array.mem_push.1 hv with hv | rfl
      · exact hσ.items a (p.not_closed ha) v hv
      · exact (within_getElem?_getD hargs 1).mono (Extent.le_trans hl hk)
    · exact Keeps.bind (Q := fun _ _ => True) (Keeps.view fun _ _ _ => trivial) fun _ _ _ _ =>
        Confined.scalar rfl
  | pop =>
    refine Keeps.bind (keeps_arrayArgument hargs) fun l a hl ha => ?_
    refine Keeps.bind (Q := fun m v => v.Within p m) (Keeps.view fun σ hσ hk => ?_)
      fun m last hm hlast => ?_
    · exact within_getD fun v hv => hσ.items a (p.not_closed ha) v (Array.mem_of_back? hv)
    · refine Keeps.bind (Q := fun _ _ => True) (Keeps.alter fun σ hσ hk => ?_) fun _ _ hk _ =>
        Keeps.pure fun _ hn => hlast.mono (Extent.le_trans hk hn)
      refine ⟨hσ.modifyArray a fun v hv => ?_,
        Store.follows_modifyArray (p.not_closed ha) _, trivial⟩
      rw [← Array.mem_toList_iff, Array.toList_pop] at hv
      exact hσ.items a (p.not_closed ha) v
        (Array.mem_toList_iff.1 ((List.dropLast_sublist _).subset hv))
  | join =>
    refine Keeps.bind (keeps_arrayArgument hargs) fun l a hl ha => ?_
    exact Keeps.bind Keeps.test fun _ _ _ _ => Keeps.bind Keeps.test fun _ _ _ _ =>
      Keeps.bind Keeps.test fun _ _ _ _ => Confined.scalar rfl
  | copy => exact Keeps.bind (confined_argument hargs 0) fun _ _ _ _ => confined_copy
  | bindFirst =>
    refine Keeps.bind keeps_functionArgument fun l f hl _ => ?_
    refine Keeps.bind (keeps_newApplied ((within_getElem?_getD hargs 1).mono hl)) fun _ _ _ _ => ?_
    exact Keeps.pure fun _ _ => trivial
  | compose =>
    refine Keeps.bind keeps_functionArgument fun l f hl _ => ?_
    refine Keeps.bind keeps_functionArgument fun m g hm _ => ?_
    exact Keeps.bind keeps_newComposite fun _ _ _ _ => Keeps.pure fun _ _ => trivial
  | host f => exact Host.Confined.run_confined hcall hargs f

end Library

end Eval
end Scriptlet
