import Scriptlet.Evaluate
import Scriptlet.Proofs.Comparison
import Scriptlet.Proofs.Settled

/-!
# More fuel keeps how a computation ends

A computation that does not run out of fuel ends in the same way with any larger amount: with the
same value or error, and in the same store.  So how it ends does not depend on its fuel, and can be
spoken of without it (`Eval.Ends`).

Two relations say this, one of readings and one of computations: the second of two does what the
first one does, unless the first runs out (`Walk.Below`, `Eval.Below`).  There is one rule for each
way to make a reading or a computation, one lemma for each function of the evaluator, and one
induction on fuel for the four that call each other.

The specification knows nothing of fuel: there a program runs until it ends, or for ever (§5).
What this module proves is what makes an amount of fuel a bound on the length of a run and nothing
else.
-/

namespace Scriptlet

/-! ## 1. Readings

A reading only looks at a store.  It has no store to leave behind, so its relation is on options. -/

namespace Walk

section Rules

variable {α β : Type}

/-- What the first reading gives, the second one gives too. -/
def Below (o o' : Option α) : Prop := ∀ a, o = some a → o' = some a

theorem Below.refl (o : Option α) : Below o o := fun _ h => h

theorem Below.bind {o o' : Option α} {f f' : α → Option β} (ho : Below o o')
    (hf : ∀ a, Below (f a) (f' a)) :
    Below (o >>= f) (o' >>= f') := by
  intro b h
  simp only [Option.bind_eq_bind, Option.bind_eq_some_iff] at h ⊢
  obtain ⟨a, ha, hb⟩ := h
  exact ⟨a, ho a ha, hf a b hb⟩

theorem Below.map {o o' : Option α} (ho : Below o o') (f : α → β) : Below (o.map f) (o'.map f) := by
  intro b h
  obtain ⟨a, ha, rfl⟩ := Option.map_eq_some_iff.1 h
  exact Option.map_eq_some_iff.2 ⟨a, ho a ha, rfl⟩

theorem Below.ite {c : Prop} [Decidable c] {o o' p p' : Option α} (ho : Below o o')
    (hp : Below p p') :
    Below (if c then o else p) (if c then o' else p') := by
  split
  · exact ho
  · exact hp

end Rules

variable {σ : Store} {slot slot' : Reader}

theorem allPairs_below {p p' : Value → Value → Option Bool} (hp : ∀ x y, Below (p x y) (p' x y)) :
    ∀ xs ys, Below (allPairs p xs ys) (allPairs p' xs ys)
  | x :: xs, y :: ys => .bind (hp x y) fun _ => .ite (allPairs_below hp xs ys) (.refl _)
  | [], _ => .refl _
  | _ :: _, [] => .refl _

/-- More fuel opens more pairs, and follows further what refers to others. -/
theorem identical_below (hslot : Reader.ExtendedBy slot slot') {n m : Nat} (hnm : n ≤ m) :
    ∀ (pairs : OpenPairs) (l r : Value), Below (identical σ slot n pairs l r)
      (identical σ slot' m pairs l r) := by
  induction n generalizing m with
  | zero =>
    intro pairs l r t h
    cases h
  | succ n ih =>
    intro pairs l r
    obtain ⟨m, rfl⟩ : ∃ k, m = k + 1 := Nat.exists_eq_add_one.2 (Nat.lt_of_lt_of_le n.succ_pos hnm)
    have hresolve : ∀ v, Below (resolve slot v) (resolve slot' v) :=
      fun v w => follow_mono hslot hopLimit
    refine .bind (hresolve l) fun x => .bind (hresolve r) fun y => ?_
    split
    case h_6 a b =>
      refine .ite (.refl _) (.ite (.refl _) ?_)
      exact allPairs_below (ih (Nat.le_of_succ_le_succ hnm) _) _ _
    all_goals exact .refl _

theorem lexicographic_below {cmp cmp' : Value → Value → Option Ordering}
    (hcmp : ∀ x y, Below (cmp x y) (cmp' x y)) :
    ∀ xs ys, Below (lexicographic cmp xs ys) (lexicographic cmp' xs ys)
  | x :: xs, y :: ys => by
    refine .bind (hcmp x y) fun o => ?_
    cases o with
    | eq => exact lexicographic_below hcmp xs ys
    | lt | gt => exact .refl _
  | [], [] => .refl _
  | [], _ :: _ => .refl _
  | _ :: _, [] => .refl _

/-- The text of an array may take fuel, and so may its only element. -/
theorem arrayOrder_below (hslot : Reader.ExtendedBy slot slot') {n m : Nat} (hnm : n ≤ m)
    (pairs : OpenPairs) (a : ArrayId) (v : Value)
    (hcmp : ∀ item, Below (compare σ slot n pairs item v) (compare σ slot' m pairs item v)) :
    Below (arrayOrder σ slot n pairs a v) (arrayOrder σ slot' m pairs a v) := by
  refine .ite (.refl _) ?_
  split
  · exact hcmp _
  · refine .bind (fun t ht => ?_) fun _ => .refl _
    exact joinTexts_mono (fun v s => render_mono hslot hnm) ht

/-- The cases are the equations of a comparison, by what the two operands resolve to. -/
theorem compare_below (hslot : Reader.ExtendedBy slot slot') {n m : Nat} (hnm : n ≤ m) :
    ∀ (pairs : OpenPairs) (l r : Value), Below (compare σ slot n pairs l r)
      (compare σ slot' m pairs l r) := by
  induction n generalizing m with
  | zero =>
    intro pairs l r o h
    cases h
  | succ n ih =>
    intro pairs l r o h
    obtain ⟨m, rfl⟩ : ∃ k, m = k + 1 := Nat.exists_eq_add_one.2 (Nat.lt_of_lt_of_le n.succ_pos hnm)
    have hle : n ≤ m := Nat.le_of_succ_le_succ hnm
    obtain ⟨order, horder⟩ := exists_compare_eq σ slot n pairs
    have hread := h
    rw [horder] at hread
    simp only [Option.bind_eq_some_iff] at hread
    obtain ⟨x, hx, y, hy, -⟩ := hread
    have hx' : resolve slot' l = some x := follow_mono hslot hopLimit hx
    have hy' : resolve slot' r = some y := follow_mono hslot hopLimit hy
    cases hxa : x.isArray <;> cases hya : y.isArray
    case false.false =>
      rw [compare_scalars hx hy hxa hya] at h
      rwa [compare_scalars hx' hy' hxa hya]
    case true.true =>
      obtain ⟨a, rfl⟩ := Value.isArray_iff.1 hxa
      obtain ⟨b, rfl⟩ := Value.isArray_iff.1 hya
      rw [compare_arrays hx hy] at h
      rw [compare_arrays hx' hy']
      exact Below.ite (.refl _) (lexicographic_below (ih hle _) _ _) o h
    case true.false =>
      obtain ⟨a, rfl⟩ := Value.isArray_iff.1 hxa
      rw [compare_array_left hx hy hya] at h
      rw [compare_array_left hx' hy' hya]
      exact arrayOrder_below hslot hle pairs a y (fun item => ih hle pairs item y) o h
    case false.true =>
      obtain ⟨b, rfl⟩ := Value.isArray_iff.1 hya
      rw [compare_array_right hx hy hxa] at h
      rw [compare_array_right hx' hy' hxa]
      exact (arrayOrder_below hslot hle pairs b x fun item => ih hle pairs item x).map _ o h

theorem copyAll_below {copy copy' : Value → Copies → Option (Value × Copies)}
    (hcopy : ∀ v c, Below (copy v c) (copy' v c)) :
    ∀ vs c, Below (copyAll copy vs c) (copyAll copy' vs c)
  | [], _ => .refl _
  | v :: vs, c => .bind (hcopy v c) fun wd => .bind (copyAll_below hcopy vs wd.2) fun _ => .refl _

theorem copy_below (hslot : Reader.ExtendedBy slot slot') {n m : Nat} (hnm : n ≤ m) :
    ∀ (v : Value) (c : Copies), Below (copy σ slot n v c) (copy σ slot' m v c) := by
  induction n generalizing m with
  | zero =>
    intro v c w h
    cases h
  | succ n ih =>
    intro v c
    obtain ⟨m, rfl⟩ : ∃ k, m = k + 1 := Nat.exists_eq_add_one.2 (Nat.lt_of_lt_of_le n.succ_pos hnm)
    refine .bind (fun w => follow_mono hslot hopLimit) fun u => ?_
    cases u with
    -- An array that has a copy already takes no fuel.
    -- An array that has a copy already takes no fuel.
    | array a =>
      dsimp only
      cases c.made.lookup a with
      | some b => exact .refl _
      | none => exact .bind (copyAll_below (ih (Nat.le_of_succ_le_succ hnm)) _ _) fun _ => .refl _
    | _ => exact .refl _

end Walk

namespace Store

open Walk

variable (σ : Store) {n m : Nat} (hnm : n ≤ m)
include hnm

theorem resolve_below (v : Value) : Below (σ.resolve n v) (σ.resolve m v) :=
  fun _ => resolve_mono hnm

theorem read_below (r : Reference) : Below (σ.read n r) (σ.read m r) :=
  .bind (slot_mono hnm r) (σ.resolve_below hnm)

theorem display_below (v : Value) : Below (σ.display n v) (σ.display m v) :=
  fun _ => render_mono (slot_mono hnm) hnm

theorem join_below (a : ArrayId) (separator : String) :
    Below (σ.join n a separator) (σ.join m a separator) :=
  fun _ => joinTexts_mono (σ.display_below hnm)

theorem toNumber_below (v : Value) : Below (σ.toNumber n v) (σ.toNumber m v) :=
  fun _ => number_mono (slot_mono hnm) hnm

theorem toInt_below (v : Value) : Below (σ.toInt n v) (σ.toInt m v) :=
  (σ.toNumber_below hnm v).map _

theorem toIndex_below (v : Value) : Below (σ.toIndex n v) (σ.toIndex m v) :=
  (σ.toNumber_below hnm v).map _

theorem toBool_below (v : Value) : Below (σ.toBool n v) (σ.toBool m v) :=
  .bind (σ.resolve_below hnm v) fun _ => .refl _

theorem subscript_below (target index : Value) :
    Below (σ.subscript n target index) (σ.subscript m target index) := by
  refine .bind (σ.toIndex_below hnm index) fun i => ?_
  cases i with
  | none => exact .refl _
  | some i => exact .bind (σ.resolve_below hnm target) fun v => σ.resolve_below hnm _

theorem unaryOperand_below (v : Value) : Below (σ.unaryOperand n v) (σ.unaryOperand m v) := by
  refine .bind (σ.resolve_below hnm v) fun w => ?_
  split
  · exact .refl _
  · exact .refl _
  · exact σ.toNumber_below hnm _

theorem operand_below (v other : Value) : Below (σ.operand n v other) (σ.operand m v other) := by
  refine .bind (σ.resolve_below hnm v) fun w => .bind (σ.resolve_below hnm other) fun u => ?_
  split
  · exact .ite (σ.toNumber_below hnm _) (.refl _)
  · exact .refl _
  · exact σ.toNumber_below hnm _

theorem numeric_below (op : Number → Number → Number) (l r : Value) :
    Below (σ.numeric n op l r) (σ.numeric m op l r) :=
  .bind (σ.operand_below hnm l r) fun _ => .bind (σ.operand_below hnm r l) fun _ => .refl _

theorem bitwise_below (op : Int64 → Int64 → Int64) (l r : Value) :
    Below (σ.bitwise n op l r) (σ.bitwise m op l r) :=
  .bind (σ.toInt_below hnm l) fun _ => .bind (σ.toInt_below hnm r) fun _ => .refl _

theorem add_below (l r : Value) : Below (σ.add n l r) (σ.add m l r) := by
  refine .bind (σ.resolve_below hnm l) fun x => .bind (σ.resolve_below hnm r) fun y => ?_
  refine .ite ?_ (σ.numeric_below hnm _ x y)
  exact .bind (σ.display_below hnm x) fun _ => .bind (σ.display_below hnm y) fun _ => .refl _

theorem arith_below (op : ArithOp) (l r : Value) : Below (σ.arith n op l r) (σ.arith m op l r) := by
  cases op with
  | add => exact σ.add_below hnm l r
  | sub | mul | div | mod => exact σ.numeric_below hnm _ l r
  | shl | shr | bitAnd | bitOr | bitXor => exact σ.bitwise_below hnm _ l r

theorem identical_below (l r : Value) : Below (σ.identical n l r) (σ.identical m l r) :=
  Walk.identical_below (slot_mono hnm) hnm [] l r

theorem compare_below (l r : Value) : Below (σ.compare n l r) (σ.compare m l r) :=
  Walk.compare_below (slot_mono hnm) hnm [] l r

theorem ordered_below (accept : Ordering → Bool) (l r : Value) :
    Below (σ.ordered n accept l r) (σ.ordered m accept l r) := by
  refine .bind (σ.resolve_below hnm l) fun x => .bind (σ.resolve_below hnm r) fun y => ?_
  exact .ite (.refl _) (.bind (σ.compare_below hnm l r) fun _ => .refl _)

theorem looseEq_below (l r : Value) : Below (σ.looseEq n l r) (σ.looseEq m l r) := by
  refine .bind (σ.resolve_below hnm l) fun x => .bind (σ.resolve_below hnm r) fun y => ?_
  exact .ite (.refl _) (.bind (σ.compare_below hnm x y) fun _ => .refl _)

theorem relation_below (op : RelationOp) (l r : Value) :
    Below (σ.relation n op l r) (σ.relation m op l r) := by
  cases op with
  | eq => exact σ.looseEq_below hnm l r
  | notEq => exact (σ.looseEq_below hnm l r).map _
  | identical => exact σ.identical_below hnm l r
  | notIdentical => exact (σ.identical_below hnm l r).map _
  | less | lessEq | greater | greaterEq => exact σ.ordered_below hnm _ l r

theorem binary_below (op : BinaryOp) (l r : Value) :
    Below (σ.binary n op l r) (σ.binary m op l r) := by
  cases op with
  | arith op | update op => exact σ.arith_below hnm op l r
  | and =>
    exact .bind (σ.toBool_below hnm l) fun _ =>
      .ite (.bind (σ.toBool_below hnm r) fun _ => .refl _) (.refl _)
  | or =>
    exact .bind (σ.toBool_below hnm l) fun _ =>
      .ite (.refl _) (.bind (σ.toBool_below hnm r) fun _ => .refl _)
  | relation op => exact (σ.relation_below hnm op l r).map _
  | spaceship => exact (σ.compare_below hnm l r).map _
  | assign => exact .refl _

theorem step_below (op : StepOp) (v : Value) : Below (σ.step n op v) (σ.step m op v) :=
  (σ.unaryOperand_below hnm v).map _

theorem copy_below (v : Value) : Below (σ.copy n v) (σ.copy m v) :=
  .bind (Walk.copy_below (slot_mono hnm) hnm v _) fun _ => .refl _

end Store

/-! ## 2. Computations

A computation ends in a store, and the rules have to say that it is the same one. -/

namespace Eval

section Rules

variable {α β : Type}

/-- Unless the first computation runs out of fuel, the second one ends in the same way. -/
def Below (m m' : Eval α) : Prop := ∀ σ, m σ ≠ .exhausted → m' σ = m σ

theorem Below.refl (m : Eval α) : Below m m := fun _ _ => rfl

theorem Below.exhausted (m : Eval α) : Below exhausted m := fun _ h => absurd rfl h

/-- The rest of a computation runs in the store that its beginning leaves behind, which is the same
one. -/
theorem Below.bind {m m' : Eval α} {f f' : α → Eval β} (hm : Below m m')
    (hf : ∀ a, Below (f a) (f' a)) :
    Below (m >>= f) (m' >>= f') := by
  intro σ h
  simp only [Bind.bind] at h ⊢
  cases hrun : m σ with
  | done a τ =>
    rw [hrun] at h
    rw [hm σ (by simp [hrun]), hrun]
    exact hf a τ h
  | failed e τ => rw [hm σ (by simp [hrun]), hrun]
  | exhausted =>
    rw [hrun] at h
    exact absurd rfl h

/-- A look that takes fuel is steady if the reading is. -/
theorem Below.look {f f' : Store → Option α} (hf : ∀ σ, Walk.Below (f σ) (f' σ)) :
    Below (look f) (look f') := by
  intro σ h
  unfold Eval.look at h ⊢
  cases hrun : f σ with
  | none =>
    rw [hrun] at h
    exact absurd rfl h
  | some a => rw [hf σ a hrun]

/-- Placing an error cannot bring a computation to an end. -/
theorem Below.placedAt {m m' : Eval α} (hm : Below m m') (line : Nat) :
    Below (placedAt line m) (placedAt line m') := by
  intro σ h
  unfold Eval.placedAt at h ⊢
  rw [hm σ]
  intro hrun
  rw [hrun] at h
  exact h rfl

theorem Below.ite {c : Prop} [Decidable c] {m m' k k' : Eval α} (hm : Below m m')
    (hk : Below k k') :
    Below (if c then m else k) (if c then m' else k') := by
  split
  · exact hm
  · exact hk

theorem Below.forEach {f f' : α → Eval β} (hf : ∀ a, Below (f a) (f' a)) :
    ∀ as : List α, Below (forEach f as) (forEach f' as)
  | [] => .refl _
  | a :: as => .bind (hf a) fun _ => .bind (Below.forEach hf as) fun _ => .refl _

end Rules

end Eval

/-! ## 3. Writing and native code

Writing visits one location after the other.  What a host does is not known, so it is asked of a
host as a law. -/

/-- More fuel, for the functions of a host and for the calls that they make, keeps how they end. -/
class Host.Steady [Host] : Prop where
  run_below {n m : Nat} (hnm : n ≤ m) {call call' : FunctionId → List Argument → Eval Value}
    (hcall : ∀ f args, (call f args).Below (call' f args)) (f : HostFunction) (args : List Value) :
    (Host.run call n f args).Below (Host.run call' m f args)

namespace Eval

section Native

variable {n m : Nat} (hnm : n ≤ m)
include hnm

/-- The number of visits is not fuel: it is kept, and used up alike. -/
theorem writeWithin_below (budget : Nat) (r : Reference) (v : Value) :
    Below (writeWithin n budget r v) (writeWithin m budget r v) := by
  induction budget generalizing r v with
  | zero => exact .refl _
  | succ budget ih =>
    cases r with
    | direct w => exact .refl _
    | binding env x =>
      refine .bind (.refl _) fun o => ?_
      split
      · exact ih _ _
      · exact .refl _
    | element base index =>
      simp only [writeWithin]
      refine .bind (.look fun σ => σ.toIndex_below hnm index) fun i => ?_
      cases i with
      | none => exact .bind (.look fun σ => σ.display_below hnm index) fun _ => .refl _
      | some i =>
        refine .bind (.look fun σ => σ.read_below hnm base) fun u => ?_
        cases u with
        | array a =>
          refine .bind (.refl _) fun size => .bind (.refl _) fun o => ?_
          split
          · exact ih _ _
          · exact .refl _
        | str s =>
          exact .ite (.refl _) (.bind (.look fun σ => σ.display_below hnm v) fun _ => ih _ _)
        | invalid => exact .ite (.refl _) (.bind (.refl _) fun _ => ih _ _)
        | _ => exact .refl _

theorem write_below (r : Reference) (v : Value) : Below (write n r v) (write m r v) :=
  writeWithin_below hnm (hopLimit + 1) r v

theorem argument_below (args : List Value) (i : Nat) :
    Below (Native.argument n args i) (Native.argument m args i) :=
  .look fun σ => σ.resolve_below hnm _

theorem numberArgument_below (args : List Value) (i : Nat) :
    Below (Native.numberArgument n args i) (Native.numberArgument m args i) :=
  .bind (argument_below hnm args i) fun v => .look fun σ => σ.toNumber_below hnm v

theorem operandArgument_below (args : List Value) (i : Nat) :
    Below (Native.operandArgument n args i) (Native.operandArgument m args i) :=
  .bind (argument_below hnm args i) fun v => .look fun σ => σ.unaryOperand_below hnm v

theorem arrayArgument_below (args : List Value) (i : Nat) (who : String) :
    Below (Native.arrayArgument n args i who) (Native.arrayArgument m args i who) :=
  .bind (argument_below hnm args i) fun _ => .refl _

theorem functionArgument_below (args : List Value) (i : Nat) (who : String) :
    Below (Native.functionArgument n args i who) (Native.functionArgument m args i who) :=
  .bind (argument_below hnm args i) fun _ => .refl _

variable {call call' : FunctionId → List Argument → Eval Value}
  (hcall : ∀ f args, Below (call f args) (call' f args))
include hcall

/-- Native code looks at its arguments, except for a host, which may call back. -/
theorem run_below [Host] [Host.Steady] (code : Native) (args : List Value) :
    Below (Native.run call n code args) (Native.run call' m code args) := by
  have hnumber := fun i => numberArgument_below hnm args i
  have hoperand := fun i => operandArgument_below hnm args i
  cases code with
  | len =>
    refine .bind (argument_below hnm args 0) fun v => ?_
    split
    · exact .refl _
    · exact .refl _
    · exact .bind (.look fun σ => σ.display_below hnm _) fun _ => .refl _
  | type => exact .refl _
  | int | float | isNaN | isInf | abs | floor | ceil | round | sqrt =>
    exact .bind (hnumber 0) fun _ => .refl _
  | str =>
    exact .bind (argument_below hnm args 0) fun v => .bind (.look fun σ => σ.display_below hnm v)
      fun _ => .refl _
  | bool =>
    exact .bind (argument_below hnm args 0) fun v => .bind (.look fun σ => σ.toBool_below hnm v)
      fun _ => .refl _
  | min | max => exact .bind (hoperand 0) fun _ => .bind (hoperand 1) fun _ => .refl _
  | clamp =>
    exact .bind (hoperand 0) fun _ => .bind (hoperand 1) fun _ => .bind (hoperand 2)
      fun _ => .refl _
  | pow => exact .bind (hnumber 0) fun _ => .bind (hnumber 1) fun _ => .refl _
  | push | pop => exact .bind (arrayArgument_below hnm args 0 _) fun _ => .refl _
  | join =>
    refine .bind (arrayArgument_below hnm args 0 _) fun a =>
      .bind (argument_below hnm args 1) fun v => ?_
    refine .bind (.look fun σ => σ.display_below hnm v) fun separator => ?_
    exact .bind (.look fun σ => σ.join_below hnm a separator) fun _ => .refl _
  | copy =>
    refine .bind (argument_below hnm args 0) fun v σ h => ?_
    cases hcopy : σ.copy n v with
    | none => simp only [hcopy, ne_eq, not_true_eq_false] at h
    | some wτ => simp only [σ.copy_below hnm v wτ hcopy]
  | bindFirst => exact .bind (functionArgument_below hnm args 0 _) fun _ => .refl _
  | compose =>
    exact .bind (functionArgument_below hnm args 0 _) fun _ =>
      .bind (functionArgument_below hnm args 1 _) fun _ => .refl _
  | host f => exact Host.Steady.run_below hnm hcall f args

end Native

/-! ## 4. Control flow -/

section Flow

theorem sequence_below {exec exec' : Stmt → Eval Flow} (hexec : ∀ s, Below (exec s) (exec' s))
    (last : Value) (body : List Stmt) :
    Below (Flow.sequence exec last body) (Flow.sequence exec' last body) := by
  induction body generalizing last with
  | nil => exact .refl _
  | cons s rest ih =>
    refine .bind (hexec s) fun flow => ?_
    split
    · exact ih _
    · exact .refl _

/-- A loop is given fuel of its own, which may be more as well. -/
theorem loop_below {test test' : Eval Bool} {body body' : Eval Flow} {step step' : Eval Unit}
    (htest : Below test test') (hbody : Below body body') (hstep : Below step step') {n m : Nat}
    (hnm : n ≤ m) (last : Value) :
    Below (Flow.loop test body step n last) (Flow.loop test' body' step' m last) := by
  induction n generalizing m last with
  | zero => exact .exhausted _
  | succ n ih =>
    obtain ⟨m, rfl⟩ : ∃ k, m = k + 1 := Nat.exists_eq_add_one.2 (Nat.lt_of_lt_of_le n.succ_pos hnm)
    refine .bind htest fun b => .ite (.bind hbody fun flow => ?_) (.refl _)
    split
    · exact .refl _
    · exact .refl _
    -- The next round is run with one unit less of the fuel of the loop.
    · exact .bind hstep fun _ => ih (Nat.le_of_succ_le_succ hnm) _

theorem anyCase_below {test test' : Expr → Eval Bool} (htest : ∀ e, Below (test e) (test' e)) :
    ∀ labels, Below (Flow.anyCase test labels) (Flow.anyCase test' labels)
  | [] => .refl _
  | .default :: labels => anyCase_below htest labels
  | .case e :: labels => .bind (htest e) fun _ => .ite (.refl _) (anyCase_below htest labels)

theorem select_below {test test' : Expr → Eval Bool} (htest : ∀ e, Below (test e) (test' e)) :
    ∀ fallback sections, Below (Flow.select test fallback sections)
      (Flow.select test' fallback sections)
  | _, [] => .refl _
  | fallback, s :: rest =>
    .bind (anyCase_below htest s.labels) fun _ =>
      .ite (.refl _) (.ite (select_below htest _ rest) (select_below htest fallback rest))

theorem runSections_below {run run' : List Stmt → Eval Flow}
    (hrun : ∀ body, Below (run body) (run' body)) (last : Value) (sections : List Section) :
    Below (Flow.runSections run last sections) (Flow.runSections run' last sections) := by
  induction sections generalizing last with
  | nil => exact .refl _
  | cons s rest ih =>
    refine .bind (hrun s.body) fun flow => ?_
    split
    · exact ih _
    · exact .refl _
    · exact .refl _

theorem bindAll_below {eval eval' : Expr → Eval Value} (heval : ∀ e, Below (eval e) (eval' e))
    (env : Env) :
    ∀ (params : List Parameter) (slots : List (Option Value)),
      Below (Parameter.bindAll eval env params slots) (Parameter.bindAll eval' env params slots)
  | p :: ps, slot :: slots => by
    have hrest := fun (m m' : Eval Value) (hm : Below m m') =>
      Below.bind hm fun v => .bind (.refl (alter (·.define env p.name v))) fun _ =>
      bindAll_below heval env ps slots
    simp only [Parameter.bindAll]
    split
    · exact hrest _ _ (.refl _)
    · exact hrest _ _ (heval _)
    · exact hrest _ _ (.refl _)
    · exact hrest _ _ (.refl _)
  | [], _ => .refl _
  | _ :: _, [] => .refl _

end Flow

/-! ## 5. Expressions, statements and calls

For each of the four functions, one lemma says what a unit of fuel adds. -/

section Evaluator

variable {n m : Nat}

theorem stepLocation_below (hnm : n ≤ m) (op : StepOp) (line : Nat) (target : Reference) :
    Below (stepLocation n op line target) (stepLocation m op line target) := by
  refine .bind (.look fun σ => σ.read_below hnm target) fun old => ?_
  refine .bind (.look fun σ => σ.step_below hnm op old) fun new => ?_
  exact .bind ((write_below hnm target new).placedAt line) fun _ => .refl _

theorem condition_below (hnm : n ≤ m) {k k' : Eval Value} (hk : Below k k') :
    Below (do let v ← k; look (·.toBool n v)) (do let v ← k'; look (·.toBool m v)) :=
  .bind hk fun v => .look fun σ => σ.toBool_below hnm v

variable [Host]

structure EvaluatorBelow (n m : Nat) : Prop where
  eval : ∀ env e, Below (Eval.eval n env e) (Eval.eval m env e)
  locate : ∀ env e, Below (Eval.locate n env e) (Eval.locate m env e)
  exec : ∀ env s, Below (Eval.exec n env s) (Eval.exec m env s)
  invoke : ∀ f args, Below (Eval.invoke n f args) (Eval.invoke m f args)

/-- Operators that may leave their right operand alone come first, then those that write. -/
theorem EvaluatorBelow.eval_binary (ih : EvaluatorBelow n m) (hnm : n ≤ m) (env : Env)
    (op : BinaryOp) (l r : Expr) (pos : Position) :
    Below (Eval.eval (n + 1) env (.binary op l r pos))
      (Eval.eval (m + 1) env (.binary op l r pos)) := by
  have heval := ih.eval env
  cases op with
  | and =>
    refine .bind (heval l) fun v => .bind (.look fun σ => σ.toBool_below hnm v) fun _ =>
      .ite ?_ (.refl _)
    exact .bind (heval r) fun w => .bind (.look fun σ => σ.toBool_below hnm w) fun _ => .refl _
  | or =>
    refine .bind (heval l) fun v => .bind (.look fun σ => σ.toBool_below hnm v) fun _ =>
      .ite (.refl _) ?_
    exact .bind (heval r) fun w => .bind (.look fun σ => σ.toBool_below hnm w) fun _ => .refl _
  | assign =>
    refine .bind (ih.locate env l) fun target => .bind (heval r) fun v => ?_
    exact .bind ((write_below hnm target v).placedAt pos.line) fun _ => .refl _
  | update op =>
    refine .bind (ih.locate env l) fun target => .bind (.look fun σ => σ.read_below hnm target)
      fun current => ?_
    refine .bind (heval r) fun w => .bind (.look fun σ => σ.arith_below hnm op current w)
      fun v => ?_
    exact .bind ((write_below hnm target v).placedAt pos.line) fun _ => .refl _
  | arith op | relation op | spaceship =>
    exact .bind (heval l) fun v => .bind (heval r) fun w => .look fun σ => σ.binary_below hnm _ v w

theorem EvaluatorBelow.eval_succ (ih : EvaluatorBelow n m) (hnm : n ≤ m) (env : Env) (e : Expr) :
    Below (Eval.eval (n + 1) env e) (Eval.eval (m + 1) env e) := by
  have heval := ih.eval env
  cases e with
  | bool b pos | int i pos | float x pos | str s pos => exact .refl _
  | interpolation parts pos =>
    refine .bind (.forEach (fun part => ?_) parts) fun _ => .refl _
    cases part with
    | text t => exact .refl _
    | expr e => exact .bind (heval e) fun v => .look fun σ => σ.display_below hnm v
  | list items pos => exact .bind (.forEach heval items) fun _ => .refl _
  | var x pos => exact .look fun σ => σ.resolve_below hnm _
  | unary op e pos =>
    cases op with
    | plus => exact .bind (heval e) fun v => .look fun σ => (σ.unaryOperand_below hnm v).map _
    | neg => exact .bind (heval e) fun v => .look fun σ => (σ.unaryOperand_below hnm v).map _
    | not => exact .bind (heval e) fun v => .look fun σ => (σ.toBool_below hnm v).map _
    | bitNot => exact .bind (heval e) fun v => .look fun σ => (σ.toInt_below hnm v).map _
    | step op =>
      exact .bind (ih.locate env e) fun target => .bind (stepLocation_below hnm op pos.line target)
        fun _ => .refl _
    | ref => exact .bind (ih.locate env e) fun _ => .refl _
  | trailing op e pos =>
    exact .bind (ih.locate env e) fun target => .bind (stepLocation_below hnm op pos.line target)
      fun _ => .refl _
  | binary op l r pos => exact ih.eval_binary hnm env op l r pos
  | ternary c t f pos =>
    exact .bind (heval c) fun v => .bind (.look fun σ => σ.toBool_below hnm v) fun _ =>
      .ite (heval t) (heval f)
  | call callee args pos =>
    refine .bind (heval callee) fun v => ?_
    cases v with
    | function f =>
      refine .bind (.forEach (fun arg => ?_) args) fun vs => (ih.invoke f vs).placedAt pos.line
      obtain ⟨name, e⟩ := arg
      exact .bind (heval e) fun _ => .refl _
    | _ => exact .refl _
  | subscript target index pos =>
    exact .bind (heval target) fun v => .bind (heval index) fun i => .look fun σ =>
      σ.subscript_below hnm v i

theorem EvaluatorBelow.locate_succ (ih : EvaluatorBelow n m) (hnm : n ≤ m) (env : Env) (e : Expr) :
    Below (Eval.locate (n + 1) env e) (Eval.locate (m + 1) env e) := by
  cases e with
  | var x pos => exact .refl _
  | subscript target index pos =>
    exact .bind (ih.locate env target) fun _ => .bind (ih.eval env index) fun _ => .refl _
  | ternary c t f pos =>
    exact .bind (ih.eval env c) fun v =>
      .bind (.look fun σ => σ.toBool_below hnm v) fun _ => .ite (ih.locate env t) (ih.locate env f)
  | bool _ _ | int _ _ | float _ _ | str _ _ | interpolation _ _ | list _ _ | unary _ _ _
  | trailing _ _ _ | binary _ _ _ _ | call _ _ _ =>
    exact .bind (ih.eval env _) fun _ => .refl _

/-- What a `for` loop does once it is initialised. -/
theorem EvaluatorBelow.forLoop_rest (ih : EvaluatorBelow n m) (hnm : n ≤ m) (env : Env)
    (c step : Option Expr) (body : Stmt) :
    Below
      (Flow.loop (match c with
        | some e => do
          let v ← Eval.eval n env e
          look (·.toBool n v)
        | none => pure true) (Eval.exec n env body) (match step with
        | some e => do
          let _ ← Eval.eval n env e
        | none => pure ()) n .invalid)
      (Flow.loop (match c with
        | some e => do
          let v ← Eval.eval m env e
          look (·.toBool m v)
        | none => pure true) (Eval.exec m env body) (match step with
        | some e => do
          let _ ← Eval.eval m env e
        | none => pure ()) m .invalid) := by
  refine loop_below ?_ (ih.exec env body) ?_ hnm .invalid
  · cases c with
    | none => exact .refl _
    | some e => exact condition_below hnm (ih.eval env e)
  · cases step with
    | none => exact .refl _
    | some e => exact .bind (ih.eval env e) fun _ => .refl _

theorem EvaluatorBelow.exec_succ (ih : EvaluatorBelow n m) (hnm : n ≤ m) (env : Env) (s : Stmt) :
    Below (Eval.exec (n + 1) env s) (Eval.exec (m + 1) env s) := by
  have heval := ih.eval env
  have hexec := ih.exec env
  cases s with
  | block body pos =>
    exact .bind (.refl _) fun inner => sequence_below (ih.exec inner) .invalid body
  | ifElse c t f pos =>
    refine .bind (heval c) fun v => .bind (.look fun σ => σ.toBool_below hnm v) fun _ =>
      .ite (hexec t) ?_
    cases f with
    | none => exact .refl _
    | some s => exact hexec s
  | switch subject sections pos =>
    refine .bind (heval subject) fun v => .bind (select_below (fun e => ?_) none sections)
      fun chosen => ?_
    · exact .bind (heval e) fun w => .look fun σ => σ.looseEq_below hnm w v
    · exact runSections_below (fun body => sequence_below hexec .invalid body) .invalid chosen
  | whileLoop c body pos =>
    exact loop_below (condition_below hnm (heval c)) (hexec body) (.refl _) hnm .invalid
  | forLoop init c step body pos =>
    cases init with
    | none => exact ih.forLoop_rest hnm env c step body
    | some e => exact .bind (heval e) fun _ => ih.forLoop_rest hnm env c step body
  | breakLoop pos | continueLoop pos | declare decl => exact .refl _
  | returnValue e pos =>
    cases e with
    | none => exact .refl _
    | some e => exact .bind (heval e) fun _ => .refl _
  | expr e => exact .bind (heval e) fun _ => .refl _

theorem EvaluatorBelow.invoke_succ [Host.Steady] (ih : EvaluatorBelow n m) (hnm : n ≤ m)
    (f : FunctionId) (args : List Argument) :
    Below (Eval.invoke (n + 1) f args) (Eval.invoke (m + 1) f args) := by
  refine .bind (.refl _) fun fn => ?_
  simp only []
  split
  · exact run_below hnm ih.invoke _ _
  · exact run_below hnm ih.invoke _ _
  · refine .bind (.refl _) fun env => .bind (bindAll_below (ih.eval env) env _ _) fun _ => ?_
    exact .bind (sequence_below (ih.exec env) .invalid _) fun _ => .refl _
  · exact .bind (ih.invoke _ args) fun _ => ih.invoke _ _
  · exact .bind (.refl _) fun _ => ih.invoke _ _

/-- The functions of the evaluator call each other with one unit of fuel less, so one induction goes
through them together. -/
theorem evaluatorBelow [Host.Steady] (hnm : n ≤ m) : EvaluatorBelow n m := by
  induction n generalizing m with
  | zero =>
    exact ⟨fun _ _ => .exhausted _, fun _ _ => .exhausted _, fun _ _ => .exhausted _,
      fun _ _ => .exhausted _⟩
  | succ n ih =>
    obtain ⟨m, rfl⟩ : ∃ k, m = k + 1 := Nat.exists_eq_add_one.2 (Nat.lt_of_lt_of_le n.succ_pos hnm)
    have hle : n ≤ m := Nat.le_of_succ_le_succ hnm
    have hless := ih hle
    exact ⟨hless.eval_succ hle, hless.locate_succ hle, hless.exec_succ hle, hless.invoke_succ hle⟩

end Evaluator
end Eval
end Scriptlet
