import Scriptlet.Proofs.MoreFuel

/-!
# How a computation ends, whatever its fuel

A computation with fuel is a family of computations, one for each amount.  If more fuel keeps how it
ends, then it ends in at most one way, and a way in which it ends can be followed step by step: a
computation that is made of two ends as the second one does where the first one left off
(`Eval.ends_bind`).  Two computations have the same endings if what one of them gives at some amount
of fuel, the other one gives at some amount, too.
-/

namespace Scriptlet

/-! ## 1. Readings

A reading gives something or nothing, and the store stays as it is. -/

namespace Walk

variable {α β : Type} {f : Nat → Option α} {g : Nat → α → Option β}

def Steady (f : Nat → Option α) : Prop := ∀ ⦃n m⦄, n ≤ m → Below (f n) (f m)

def Finds (f : Nat → Option α) (a : α) : Prop := ∃ fuel, f fuel = some a

/-- With more fuel than either of them needs, both are read. -/
theorem Finds.unique (hf : Steady f) {a b : α} (ha : Finds f a) (hb : Finds f b) : a = b := by
  obtain ⟨n, hn⟩ := ha
  obtain ⟨m, hm⟩ := hb
  have hleft := hf (Nat.le_max_left n m) a hn
  have hright := hf (Nat.le_max_right n m) b hm
  exact Option.some.inj (hleft.symm.trans hright)

theorem Steady.bind (hf : Steady f) (hg : ∀ a, Steady (g · a)) : Steady fun n => f n >>= g n :=
  fun _ _ hnm => .bind (hf hnm) fun a => hg a hnm

/-- Fuel that is enough for both parts of a reading is enough for the whole. -/
theorem finds_bind (hf : Steady f) (hg : ∀ a, Steady (g · a)) {b : β} :
    Finds (fun n => f n >>= g n) b ↔ ∃ a, Finds f a ∧ Finds (g · a) b := by
  constructor
  · rintro ⟨n, h⟩
    simp only [Option.bind_eq_bind, Option.bind_eq_some_iff] at h
    obtain ⟨a, ha, hb⟩ := h
    exact ⟨a, ⟨n, ha⟩, n, hb⟩
  · rintro ⟨a, ⟨n, ha⟩, m, hb⟩
    refine ⟨max n m, ?_⟩
    simp only [Option.bind_eq_bind, Option.bind_eq_some_iff]
    exact ⟨a, hf (Nat.le_max_left n m) a ha, hg a (Nat.le_max_right n m) b hb⟩

theorem finds_succ (hf : Steady f) {a : α} : Finds (fun n => f (n + 1)) a ↔ Finds f a := by
  constructor
  · rintro ⟨n, h⟩
    exact ⟨n + 1, h⟩
  · rintro ⟨n, h⟩
    exact ⟨n, hf n.le_succ a h⟩

theorem finds_pure {a b : α} : Finds (fun _ => some a) b ↔ b = a := by
  constructor
  · rintro ⟨n, h⟩
    exact (Option.some.inj h).symm
  · rintro rfl
    exact ⟨0, rfl⟩

/-- From some amount of fuel on, the reading always gives the same. -/
def Halts (f : Nat → Option α) : Prop := ∃ a bound, ∀ n, bound ≤ n → f n = some a

theorem Halts.finds (hf : Halts f) : ∃ a, Finds f a := by
  obtain ⟨a, bound, h⟩ := hf
  exact ⟨a, bound, h bound (Nat.le_refl bound)⟩

/-- What is found once is found from then on, if more fuel keeps what is read. -/
theorem Finds.halts {a : α} (h : Finds f a) (hf : Steady f) : Halts f := by
  obtain ⟨n, hn⟩ := h
  exact ⟨a, n, fun m hnm => hf hnm a hn⟩

theorem Halts.pure (a : α) : Halts fun _ => some a := ⟨a, 0, fun _ _ => rfl⟩

/-- Both parts halt, so the whole halts from the larger of their bounds on. -/
theorem Halts.bind (hf : Halts f) (hg : ∀ a, Finds f a → Halts (g · a)) :
    Halts fun n => f n >>= g n := by
  obtain ⟨a, bound, ha⟩ := hf
  obtain ⟨b, bound', hb⟩ := hg a ⟨bound, ha bound (Nat.le_refl bound)⟩
  refine ⟨b, max bound bound', fun n hn => ?_⟩
  have hfirst := ha n (Nat.le_trans (Nat.le_max_left _ _) hn)
  exact (congrArg (· >>= g n) hfirst).trans (hb n (Nat.le_trans (Nat.le_max_right _ _) hn))

theorem Halts.map (hf : Halts f) (k : α → β) : Halts fun n => (f n).map k := by
  obtain ⟨a, bound, ha⟩ := hf
  exact ⟨k a, bound, fun n hn => congrArg (Option.map k) (ha n hn)⟩

theorem Halts.ite {c : Prop} [Decidable c] {f' : Nat → Option α} (hf : Halts f) (hf' : Halts f') :
    Halts fun n => if c then f n else f' n := by
  split
  · exact hf
  · exact hf'

end Walk

namespace Store

variable {σ : Store}

theorem steady_slot (r : Reference) : Walk.Steady (σ.slot · r) := fun _ _ hnm => slot_mono hnm r

theorem steady_read (r : Reference) : Walk.Steady (σ.read · r) := fun _ _ hnm => σ.read_below hnm r

theorem steady_resolve (v : Value) : Walk.Steady (σ.resolve · v) :=
  fun _ _ hnm => σ.resolve_below hnm v

theorem steady_toIndex (v : Value) : Walk.Steady (σ.toIndex · v) :=
  fun _ _ hnm => σ.toIndex_below hnm v

end Store

/-! ## 2. Computations

Two computations have the same endings if each outcome of one is an outcome of the other, with
whatever fuel. -/

namespace Eval

section Endings

variable {α β : Type} {m m' : Nat → Eval α} {f : Nat → α → Eval β} {σ : Store}

def Steady (m : Nat → Eval α) : Prop := ∀ ⦃n k⦄, n ≤ k → Below (m n) (m k)

/-- With enough fuel, a computation ends so. -/
def Ends (m : Nat → Eval α) (σ : Store) (o : Outcome α) : Prop :=
  o ≠ .exhausted ∧ ∃ fuel, m fuel σ = o

/-- Two computations end with the same value or the same error, and in the same store. -/
def SameEndings (m m' : Nat → Eval α) (σ : Store) : Prop := ∀ o, Ends m σ o ↔ Ends m' σ o

/-- A computation ends in at most one way. -/
theorem Ends.unique (hm : Steady m) {o o' : Outcome α} (h : Ends m σ o) (h' : Ends m σ o') :
    o = o' := by
  obtain ⟨ho, n, hn⟩ := h
  obtain ⟨ho', k, hk⟩ := h'
  have hleft := hm (Nat.le_max_left n k) σ (hn ▸ ho)
  have hright := hm (Nat.le_max_right n k) σ (hk ▸ ho')
  rw [← hn, ← hk, ← hleft, hright]

/-- One computation is the other with one more unit of fuel. -/
theorem sameEndings_of_succ (hzero : m 0 σ = .exhausted) (hsucc : ∀ n, m (n + 1) σ = m' n σ) :
    SameEndings m m' σ := by
  intro o
  constructor
  · rintro ⟨ho, n, hn⟩
    cases n with
    | zero => exact absurd (hn.symm.trans hzero) ho
    | succ n => exact ⟨ho, n, (hsucc n).symm.trans hn⟩
  · rintro ⟨ho, n, hn⟩
    exact ⟨ho, n + 1, (hsucc n).trans hn⟩

/-- Some fuel may be spent before the computation starts. -/
theorem ends_succ (hm : Steady m) {o : Outcome α} : Ends (fun n => m (n + 1)) σ o ↔ Ends m σ o := by
  constructor
  · rintro ⟨ho, n, hn⟩
    exact ⟨ho, n + 1, hn⟩
  · rintro ⟨ho, n, hn⟩
    exact ⟨ho, n, (hm n.le_succ σ (hn ▸ ho)).trans hn⟩

theorem Steady.bind (hm : Steady m) (hf : ∀ a, Steady (f · a)) : Steady fun n => m n >>= f n :=
  fun _ _ hnk => .bind (hm hnk) fun a => hf a hnk

theorem Steady.placedAt (hm : Steady m) (line : Nat) : Steady fun n => placedAt line (m n) :=
  fun _ _ hnk => (hm hnk).placedAt line

theorem steady_const (m : Eval α) : Steady fun _ => m := fun _ _ _ => .refl m

theorem steady_look {f : Nat → Store → Option α} (hf : ∀ σ, Walk.Steady (f · σ)) :
    Steady fun n => look (f n) :=
  fun _ _ hnk => .look fun σ => hf σ hnk

theorem bind_of_done {m : Eval α} {f : α → Eval β} {a : α} {τ : Store} (h : m σ = .done a τ) :
    (m >>= f) σ = f a τ := by
  simp only [Bind.bind, h]

theorem bind_of_failed {m : Eval α} {f : α → Eval β} {e : RuntimeError} {τ : Store}
    (h : m σ = .failed e τ) :
    (m >>= f) σ = .failed e τ := by
  simp only [Bind.bind, h]

theorem bind_of_exhausted {m : Eval α} {f : α → Eval β} (h : m σ = .exhausted) :
    (m >>= f) σ = .exhausted := by
  simp only [Bind.bind, h]

/-- Endings that are the same stay the same when their values are mapped. -/
theorem map_congr_at {m m' : Eval α} {τ : Store} (f : α → β) (h : m σ = m' τ) :
    (f <$> m) σ = (f <$> m') τ := by
  cases hm : m' τ with
  | done a υ => exact (bind_of_done (h.trans hm)).trans (bind_of_done hm).symm
  | failed e υ => exact (bind_of_failed (h.trans hm)).trans (bind_of_failed hm).symm
  | exhausted => exact (bind_of_exhausted (h.trans hm)).trans (bind_of_exhausted hm).symm

instance : LawfulMonad Eval := .mk' Eval
  (by
    intro α m
    funext σ
    cases h : m σ with
    | done a τ => exact bind_of_done h
    | failed e τ => exact bind_of_failed h
    | exhausted => exact bind_of_exhausted h)
  (fun _ _ => rfl)
  (by
    intro α β γ m f g
    funext σ
    cases h : m σ with
    | done a τ => simp only [Bind.bind, h]
    | failed e τ => simp only [Bind.bind, h]
    | exhausted => simp only [Bind.bind, h])

/-- A computation in two parts ends as the second part does where the first one left off, or with
the error of the first. -/
theorem ends_bind (hm : Steady m) (hf : ∀ a, Steady (f · a)) {o : Outcome β} :
    Ends (fun n => m n >>= f n) σ o ↔
      (∃ a τ, Ends m σ (.done a τ) ∧ Ends (f · a) τ o) ∨
        ∃ e τ, Ends m σ (.failed e τ) ∧ o = .failed e τ := by
  constructor
  · rintro ⟨ho, n, h⟩
    cases hrun : m n σ with
    | done a τ => exact .inl ⟨a, τ, ⟨nofun, n, hrun⟩, ho, n, (bind_of_done hrun).symm.trans h⟩
    | failed e τ => exact .inr ⟨e, τ, ⟨nofun, n, hrun⟩, h.symm.trans (bind_of_failed hrun)⟩
    | exhausted => exact absurd (h.symm.trans (bind_of_exhausted hrun)) ho
  · rintro (⟨a, τ, ⟨hne, n, hn⟩, ho, k, hk⟩ | ⟨e, τ, ⟨hne, n, hn⟩, rfl⟩)
    · refine ⟨ho, max n k, ?_⟩
      have hfirst : m (max n k) σ = .done a τ := (hm (Nat.le_max_left n k) σ (hn ▸ hne)).trans hn
      have hrest : f (max n k) a τ = o := (hf a (Nat.le_max_right n k) τ (hk ▸ ho)).trans hk
      exact (bind_of_done hfirst).trans hrest
    · exact ⟨nofun, n, bind_of_failed hn⟩

/-- What follows a computation ends alike behind any other with the same endings. -/
theorem SameEndings.bind (h : SameEndings m m' σ) (hm : Steady m) (hm' : Steady m')
    (hf : ∀ a, Steady (f · a)) :
    SameEndings (fun n => m n >>= f n) (fun n => m' n >>= f n) σ := by
  intro o
  rw [ends_bind hm hf, ends_bind hm' hf]
  simp only [h _]

theorem SameEndings.trans {m'' : Nat → Eval α} (h : SameEndings m m' σ)
    (h' : SameEndings m' m'' σ) : SameEndings m m'' σ :=
  fun o => (h o).trans (h' o)

/-- Behind the same computation, continuations with the same endings end alike. -/
theorem sameEndings_bind_right {f' : Nat → α → Eval β} (hm : Steady m) (hf : ∀ a, Steady (f · a))
    (hf' : ∀ a, Steady (f' · a)) (h : ∀ a τ, SameEndings (f · a) (f' · a) τ) :
    SameEndings (fun n => m n >>= f n) (fun n => m n >>= f' n) σ := by
  intro o
  rw [ends_bind hm hf, ends_bind hm hf']
  simp only [h _ _ o]

end Endings

/-! ## 3. Computations that only read

Most of what the evaluator does with an expression is of this kind, and there the store can be left
out of account. -/

section Observing

variable {α β : Type} {m : Nat → Eval α} {f : Nat → α → Eval β} {σ : Store}

/-- The computation never fails, and changes nothing. -/
def Observes (m : Eval α) : Prop := ∀ σ, m σ = .exhausted ∨ ∃ a, m σ = .done a σ

theorem Observes.exhausted : Observes (exhausted : Eval α) := fun _ => .inl rfl

theorem Observes.pure (a : α) : Observes (pure a) := fun _ => .inr ⟨a, rfl⟩

theorem look_of_some {f : Store → Option α} {a : α} (h : f σ = some a) : look f σ = .done a σ := by
  simp only [look, h]

theorem look_of_none {f : Store → Option α} (h : f σ = none) : look f σ = .exhausted := by
  simp only [look, h]

theorem Observes.look (f : Store → Option α) : Observes (look f) := by
  intro σ
  cases h : f σ with
  | none => exact .inl (look_of_none h)
  | some a => exact .inr ⟨a, look_of_some h⟩

theorem Observes.bind {m : Eval α} {f : α → Eval β} (hm : Observes m) (hf : ∀ a, Observes (f a)) :
    Observes (m >>= f) := by
  intro σ
  rcases hm σ with hrun | ⟨a, hrun⟩
  · exact .inl (bind_of_exhausted hrun)
  · rw [bind_of_done hrun]
    exact hf a σ

theorem Observes.ite {c : Prop} [Decidable c] {m k : Eval α} (hm : Observes m) (hk : Observes k) :
    Observes (if c then m else k) := by
  split
  · exact hm
  · exact hk

/-- A computation that only reads ends with a value, and in the store where it started. -/
theorem Ends.observed {o : Outcome α} (h : Ends m σ o) (hm : ∀ n, Observes (m n)) :
    ∃ a, o = .done a σ := by
  obtain ⟨ho, n, hn⟩ := h
  rcases hm n σ with hrun | ⟨a, hrun⟩
  · exact absurd (hn.symm.trans hrun) ho
  · exact ⟨a, hn.symm.trans hrun⟩

/-- Behind a computation that only reads, the second part starts in the same store. -/
theorem ends_bind_of_observes (hm : Steady m) (hf : ∀ a, Steady (f · a))
    (hobserves : ∀ n, Observes (m n)) {o : Outcome β} :
    Ends (fun n => m n >>= f n) σ o ↔ ∃ a, Ends m σ (.done a σ) ∧ Ends (f · a) σ o := by
  rw [ends_bind hm hf]
  constructor
  · rintro (⟨a, τ, hfirst, hrest⟩ | ⟨e, τ, hfirst, -⟩)
    · obtain ⟨b, hb⟩ := hfirst.observed hobserves
      cases hb
      exact ⟨a, hfirst, hrest⟩
    · obtain ⟨b, hb⟩ := hfirst.observed hobserves
      cases hb
  · rintro ⟨a, hfirst, hrest⟩
    exact .inl ⟨a, σ, hfirst, hrest⟩

theorem ends_pure {a : α} {o : Outcome α} : Ends (fun _ => pure a) σ o ↔ o = .done a σ := by
  constructor
  · rintro ⟨-, n, h⟩
    exact h.symm
  · rintro rfl
    exact ⟨nofun, 0, rfl⟩

theorem ends_look {f : Nat → Store → Option α} {o : Outcome α} :
    Ends (fun n => look (f n)) σ o ↔ ∃ a, Walk.Finds (f · σ) a ∧ o = .done a σ := by
  constructor
  · rintro ⟨ho, n, hn⟩
    cases hread : f n σ with
    | none => exact absurd (hn.symm.trans (look_of_none hread)) ho
    | some a => exact ⟨a, ⟨n, hread⟩, hn.symm.trans (look_of_some hread)⟩
  · rintro ⟨a, ⟨n, hn⟩, rfl⟩
    exact ⟨nofun, n, look_of_some hn⟩

/-- From some amount of fuel on, the computation always gives the same value, and changes
nothing. -/
def Halts (m : Nat → Eval α) (σ : Store) : Prop := ∃ a bound, ∀ n, bound ≤ n → m n σ = .done a σ

theorem Halts.ends (hm : Halts m σ) : ∃ a, Ends m σ (.done a σ) := by
  obtain ⟨a, bound, h⟩ := hm
  exact ⟨a, nofun, bound, h bound (Nat.le_refl bound)⟩

theorem Halts.pure (a : α) : Halts (fun _ => pure a) σ := ⟨a, 0, fun _ _ => rfl⟩

theorem Halts.look {f : Nat → Store → Option α} (hf : Walk.Halts (f · σ)) :
    Halts (fun n => look (f n)) σ := by
  obtain ⟨a, bound, ha⟩ := hf
  exact ⟨a, bound, fun n hn => look_of_some (ha n hn)⟩

theorem Halts.bind (hm : Halts m σ) (hf : ∀ a, Halts (f · a) σ) :
    Halts (fun n => m n >>= f n) σ := by
  obtain ⟨a, bound, ha⟩ := hm
  obtain ⟨b, bound', hb⟩ := hf a
  refine ⟨b, max bound bound', fun n hn => ?_⟩
  have hfirst := ha n (Nat.le_trans (Nat.le_max_left _ _) hn)
  exact (bind_of_done hfirst).trans (hb n (Nat.le_trans (Nat.le_max_right _ _) hn))

theorem Halts.ite {c : Prop} [Decidable c] {m' : Nat → Eval α} (hm : Halts m σ) (hm' : Halts m' σ) :
    Halts (fun n => if c then m n else m' n) σ := by
  split
  · exact hm
  · exact hm'

/-- A computation that spends one unit of fuel at its start. -/
theorem Halts.succ (hm : Halts (fun n => m (n + 1)) σ) : Halts m σ := by
  obtain ⟨a, bound, ha⟩ := hm
  refine ⟨a, bound + 1, fun n hn => ?_⟩
  obtain ⟨n, rfl⟩ : ∃ k, n = k + 1 := Nat.exists_eq_add_one.2 (Nat.lt_of_lt_of_le bound.succ_pos hn)
  exact ha n (Nat.le_of_succ_le_succ hn)

end Observing

/-! ## 4. What a computation gives -/

section Giving

def Gives {α : Type} (P : α → Prop) (m : Eval α) : Prop := ∀ σ a τ, m σ = .done a τ → P a

variable {α β : Type} {P : β → Prop}

theorem Gives.pure {b : β} (hb : P b) : Gives P (pure b) := by
  intro σ a τ h
  cases h
  exact hb

theorem Gives.look {f : Store → Option β} (hf : ∀ σ b, f σ = some b → P b) : Gives P (look f) := by
  intro σ b τ h
  cases hread : f σ with
  | none => cases (look_of_none hread).symm.trans h
  | some b' =>
    cases (look_of_some hread).symm.trans h
    exact hf σ b hread

theorem Gives.bind {m : Eval α} {f : α → Eval β} (hf : ∀ a, Gives P (f a)) : Gives P (m >>= f) := by
  intro σ b τ h
  cases hrun : m σ with
  | done a υ => exact hf a υ b τ ((bind_of_done hrun).symm.trans h)
  | failed e υ => cases (bind_of_failed hrun).symm.trans h
  | exhausted => cases (bind_of_exhausted hrun).symm.trans h

theorem Gives.ite {c : Prop} [Decidable c] {m k : Eval β} (hm : Gives P m) (hk : Gives P k) :
    Gives P (if c then m else k) := by
  split
  · exact hm
  · exact hk

/-- What a computation ends with has a property that all its results have. -/
theorem Ends.gives {m : Nat → Eval β} {b : β} {σ τ : Store} (h : Ends m σ (.done b τ))
    (hzero : m 0 = exhausted) (hm : ∀ n, Gives P (m (n + 1))) : P b := by
  obtain ⟨-, n, hn⟩ := h
  cases n with
  | zero =>
    rw [hzero] at hn
    cases hn
  | succ n => exact hm n σ b τ hn

end Giving

/-! ## 5. The evaluator -/

section Evaluator

theorem steady_write (r : Reference) (v : Value) : Steady (write · r v) :=
  fun _ _ hnm => write_below hnm r v

variable [Host] [Host.Steady]

theorem steady_eval (env : Env) (e : Expr) : Steady (eval · env e) :=
  fun _ _ hnm => (evaluatorBelow hnm).eval env e

theorem steady_locate (env : Env) (e : Expr) : Steady (locate · env e) :=
  fun _ _ hnm => (evaluatorBelow hnm).locate env e

end Evaluator
end Eval
end Scriptlet
