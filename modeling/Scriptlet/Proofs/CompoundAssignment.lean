import Scriptlet.Proofs.GroundedReadings
import Scriptlet.Proofs.Readings
import Scriptlet.Proofs.SampleHostLaws

/-!
# Updating assignments and what they stand for

`l op= r` finds the location of `l`, reads it, evaluates `r` and writes.  `l = l op r` finds the
location of `l`, evaluates `l`, evaluates `r` and writes.  If nothing in `l` can fail or change
anything, then the location reads what the expression evaluates to (`Eval.reads_iff`), and from
there on both do the same.  A place that `l` reads from but that `r` changes makes no difference:
both forms have read it before.

There is one exception.  The value of `&x` is a reference, which is read after `r` in one form and
before `r` in the other.  But it is no location, so the assignment is refused either way.

The two forms are those of §4.6 of the specification.
-/

namespace Scriptlet

def UnaryOp.assigns : UnaryOp → Bool
  | .step _ => true
  | _ => false

def BinaryOp.assigns : BinaryOp → Bool
  | .assign | .update _ => true
  | _ => false

namespace Expr

def scalar? : Expr → Option Value
  | .bool b _ => some (.bool b)
  | .int n _ => some (.int n)
  | .float x _ => some (.float x)
  | .str s _ => some (.str s)
  | _ => none

/-- Expressions of variables, scalar literals, subscripts, choices and operators that do not
assign. -/
inductive Plain : Expr → Prop
  | scalar {e v} : e.scalar? = some v → Plain e
  | var (x : String) (pos : Position) : Plain (.var x pos)
  | unary {op e} (pos : Position) : op.assigns = false → Plain e → Plain (.unary op e pos)
  | binary {op l r} (pos : Position) :
      op.assigns = false → Plain l → Plain r → Plain (.binary op l r pos)
  | ternary {c t f} (pos : Position) : Plain c → Plain t → Plain f → Plain (.ternary c t f pos)
  | subscript {target index} (pos : Position) :
      Plain target → Plain index → Plain (.subscript target index pos)

/-- Whether the location of an expression is found without its value. -/
def namesLocation : Expr → Bool
  | .var .. | .subscript .. | .ternary .. => true
  | _ => false

/-- Whether the value of an expression may be a reference. -/
def takesReference : Expr → Bool
  | .unary .ref _ _ => true
  | .ternary _ t f _ => t.takesReference || f.takesReference
  | _ => false

/-- Whether the location of an expression may be an element of what a reference value leads to. -/
def indexesReference : Expr → Bool
  | .subscript target _ _ => target.takesReference || target.indexesReference
  | .ternary _ t f _ => t.indexesReference || f.indexesReference
  | _ => false

end Expr

namespace Eval

variable {env : Env} {σ τ : Store} {e l r : Expr}

/-! ## 1. Plain expressions change nothing

A plain expression has no calls and no assignments in it, so that evaluating it twice gives the same
value in the same store. -/

/-- Without fuel there is nothing to observe, so only the other amounts matter. -/
theorem observes_of_succ {α : Type} {m : Nat → Eval α} (hzero : m 0 = exhausted)
    (hsucc : ∀ n, Observes (m (n + 1))) :
    ∀ n, Observes (m n) := by
  intro n
  cases n with
  | zero => exact hzero ▸ .exhausted
  | succ n => exact hsucc n

theorem namesLocation_scalar {v : Value} (he : e.scalar? = some v) : e.namesLocation = false := by
  cases e with
  | var | subscript | ternary => cases he
  | _ => rfl

variable [Host]

/-- What names no location is located by its value. -/
theorem locate_succ_of_value (he : e.namesLocation = false) (n : Nat) :
    locate (n + 1) env e = (do return .direct (← eval n env e)) := by
  cases e with
  | var | subscript | ternary => cases he
  | _ => rfl

theorem eval_scalar {v : Value} (he : e.scalar? = some v) (n : Nat) :
    eval (n + 1) env e = pure v := by
  cases e with
  | bool | int | float | str =>
    cases he
    rfl
  | _ => cases he

theorem observes_locate_of_value (he : e.namesLocation = false)
    (heval : ∀ n, Observes (eval n env e)) :
    ∀ n, Observes (locate n env e) := by
  refine observes_of_succ rfl fun n => ?_
  rw [locate_succ_of_value he]
  exact .bind (heval n) fun _ => .pure _

/-- A unary operation observes if its operand does, as a value and as a location. -/
theorem observes_unary {op : UnaryOp} (hop : op.assigns = false)
    (heval : ∀ n, Observes (eval n env e)) (hlocate : ∀ n, Observes (locate n env e))
    (pos : Position) : ∀ n, Observes (eval n env (.unary op e pos)) := by
  refine observes_of_succ rfl fun n => ?_
  cases op with
  | plus | neg | not | bitNot => exact .bind (heval n) fun _ => .look _
  | step op => cases hop
  | ref =>
    refine .bind (hlocate n) fun t => ?_
    cases t <;> exact .pure _

theorem observes_binary {op : BinaryOp} (hop : op.assigns = false)
    (hl : ∀ n, Observes (eval n env l)) (hr : ∀ n, Observes (eval n env r)) (pos : Position) :
    ∀ n, Observes (eval n env (.binary op l r pos)) := by
  refine observes_of_succ rfl fun n => ?_
  have hsecond : Observes (do let w ← eval n env r; return .bool (← look (·.toBool n w)) :
      Eval Value) :=
    .bind (hr n) fun _ => .bind (.look _) fun _ => .pure _
  cases op with
  | arith | relation | spaceship => exact .bind (hl n) fun _ => .bind (hr n) fun _ => .look _
  | and => exact .bind (hl n) fun _ => .bind (.look _) fun _ => .ite hsecond (.pure _)
  | or => exact .bind (hl n) fun _ => .bind (.look _) fun _ => .ite (.pure _) hsecond
  | assign | update => cases hop

/-- A plain expression is evaluated and located without an error, and nothing changes. -/
theorem observes_of_plain (he : e.Plain) (env : Env) :
    (∀ n, Observes (eval n env e)) ∧ ∀ n, Observes (locate n env e) := by
  induction he with
  | @scalar e v hv =>
    have heval : ∀ n, Observes (eval n env e) := by
      refine observes_of_succ rfl fun n => ?_
      rw [eval_scalar hv]
      exact .pure v
    exact ⟨heval, observes_locate_of_value (namesLocation_scalar hv) heval⟩
  | var x pos =>
    exact ⟨observes_of_succ rfl fun n => .look _, observes_of_succ rfl fun n => .pure _⟩
  | unary pos hop _ ih =>
    have heval := observes_unary hop ih.1 ih.2 pos
    exact ⟨heval, observes_locate_of_value rfl heval⟩
  | binary pos hop _ _ ihl ihr =>
    have heval := observes_binary hop ihl.1 ihr.1 pos
    exact ⟨heval, observes_locate_of_value rfl heval⟩
  | ternary pos _ _ _ ihc iht ihf =>
    constructor
    · refine observes_of_succ rfl fun n => ?_
      exact .bind (ihc.1 n) fun _ => .bind (.look _) fun _ => .ite (iht.1 n) (ihf.1 n)
    · refine observes_of_succ rfl fun n => ?_
      exact .bind (ihc.1 n) fun _ => .bind (.look _) fun _ => .ite (iht.2 n) (ihf.2 n)
  | subscript pos _ _ iht ihi =>
    constructor
    · refine observes_of_succ rfl fun n => ?_
      exact .bind (iht.1 n) fun _ => .bind (ihi.1 n) fun _ => .look _
    · refine observes_of_succ rfl fun n => ?_
      exact .bind (iht.2 n) fun _ => .bind (ihi.1 n) fun _ => .pure _

/-! ## 2. Plain expressions step by step

What it takes for each form of expression to end, as an equivalence: its parts end, one after the
other and in the same store, because none of them changes anything. -/

variable [Host.Steady]

/-- An expression that names no location is located where its value is. -/
theorem ends_locate_of_value (he : e.Plain) (hvalue : e.namesLocation = false) {t : Reference} :
    Ends (locate · env e) σ (.done t σ) ↔
      ∃ u, Ends (eval · env e) σ (.done u σ) ∧ t = .direct u := by
  have hdirect : ∀ u, Steady fun _ => (pure (.direct u) : Eval Reference) := fun u => steady_const _
  rw [← ends_succ (steady_locate env e)]
  simp only [locate_succ_of_value hvalue]
  rw [ends_bind_of_observes (steady_eval env e) hdirect (observes_of_plain he env).1]
  simp only [ends_pure, Outcome.done.injEq, and_true]

theorem ends_locate_var (x : String) (pos : Position) {t : Reference} :
    Ends (locate · env (.var x pos)) σ (.done t σ) ↔ t = .binding env x := by
  rw [← ends_succ (steady_locate env _)]
  exact ends_pure.trans (by simp)

theorem ends_eval_var (x : String) (pos : Position) {u : Value} :
    Ends (eval · env (.var x pos)) σ (.done u σ) ↔
      σ.ResolvesTo ((σ.lookup env x).getD .invalid) u := by
  rw [← ends_succ (steady_eval env _)]
  exact ends_look.trans (by simp [Store.ResolvesTo, Walk.Finds])

/-- What a choice does: its condition, then one of its branches. -/
theorem ends_choice {α : Type} {c : Expr} (hc : c.Plain) {m m' : Nat → Eval α} (hm : Steady m)
    (hm' : Steady m') {o : Outcome α} :
    Ends (fun n => do
      let v ← eval n env c
      if ← look (·.toBool n v) then m n else m' n) σ o ↔
    ∃ v, Ends (eval · env c) σ (.done v σ) ∧
      ∃ b, Walk.Finds (σ.toBool · v) b ∧ Ends (if b then m else m') σ o := by
  have hbranch : ∀ b : Bool, Steady fun n => if b then m n else m' n := by
    intro b
    cases b with
    | true => exact hm
    | false => exact hm'
  have htest : ∀ v, Steady fun n => (look (·.toBool n v) : Eval Bool) :=
    fun v => steady_look fun σ _ _ hnm => σ.toBool_below hnm v
  rw [ends_bind_of_observes (steady_eval env c) (fun v => (htest v).bind hbranch)
    (observes_of_plain hc env).1]
  apply exists_congr
  intro v
  rw [ends_bind_of_observes (htest v) hbranch fun n => .look _]
  apply and_congr_right
  intro _
  apply exists_congr
  intro b
  apply and_congr
  · exact ends_look.trans (by simp)
  · cases b <;> exact Iff.rfl

theorem ends_locate_ternary {c t f : Expr} (hc : c.Plain) (pos : Position) {o : Outcome Reference} :
    Ends (locate · env (.ternary c t f pos)) σ o ↔
      ∃ v, Ends (eval · env c) σ (.done v σ) ∧
        ∃ b, Walk.Finds (σ.toBool · v) b ∧
          Ends (if b then (locate · env t) else (locate · env f)) σ o := by
  rw [← ends_succ (steady_locate env _)]
  exact ends_choice hc (steady_locate env t) (steady_locate env f)

theorem ends_eval_ternary {c t f : Expr} (hc : c.Plain) (pos : Position) {o : Outcome Value} :
    Ends (eval · env (.ternary c t f pos)) σ o ↔
      ∃ v, Ends (eval · env c) σ (.done v σ) ∧
        ∃ b, Walk.Finds (σ.toBool · v) b ∧
          Ends (if b then (eval · env t) else (eval · env f)) σ o := by
  rw [← ends_succ (steady_eval env _)]
  exact ends_choice hc (steady_eval env t) (steady_eval env f)

/-- Two plain expressions in a row, and what follows. -/
theorem ends_pair {α β : Type} {m : Nat → Eval α} (hm : Steady m) (hobserves : ∀ n, Observes (m n))
    {i : Expr} (hi : i.Plain) {f : Nat → α → Value → Eval β} (hf : ∀ a v, Steady (f · a v))
    {o : Outcome β} :
    Ends (fun n => do
      let a ← m n
      let v ← eval n env i
      f n a v) σ o ↔
    ∃ a, Ends m σ (.done a σ) ∧ ∃ v, Ends (eval · env i) σ (.done v σ) ∧ Ends (f · a v) σ o := by
  rw [ends_bind_of_observes hm (fun a => (steady_eval env i).bind (hf a)) hobserves]
  apply exists_congr
  intro a
  rw [ends_bind_of_observes (steady_eval env i) (hf a) (observes_of_plain hi env).1]

/-- The location of a subscript: the location of its target, then the value of its index. -/
theorem ends_locate_subscript {target index : Expr} (htarget : target.Plain) (hindex : index.Plain)
    (pos : Position) {t : Reference} :
    Ends (locate · env (.subscript target index pos)) σ (.done t σ) ↔
      ∃ base, Ends (locate · env target) σ (.done base σ) ∧
        ∃ i, Ends (eval · env index) σ (.done i σ) ∧ t = .element base i := by
  rw [← ends_succ (steady_locate env _)]
  refine (ends_pair (steady_locate env target) (observes_of_plain htarget env).2 hindex
    fun base i => steady_const (pure (Reference.element base i))).trans ?_
  simp only [ends_pure, Outcome.done.injEq, and_true]

/-- The value of a subscript: the values of its target and of its index, then the element. -/
theorem ends_eval_subscript {target index : Expr} (htarget : target.Plain) (hindex : index.Plain)
    (pos : Position) {u : Value} :
    Ends (eval · env (.subscript target index pos)) σ (.done u σ) ↔
      ∃ v, Ends (eval · env target) σ (.done v σ) ∧
        ∃ i, Ends (eval · env index) σ (.done i σ) ∧ Walk.Finds (σ.subscript · v i) u := by
  rw [← ends_succ (steady_eval env _)]
  refine (ends_pair (steady_eval env target) (observes_of_plain htarget env).1 hindex
    fun v i => steady_look fun σ _ _ hnm => σ.subscript_below hnm v i).trans ?_
  simp only [ends_look, Outcome.done.injEq, and_true, exists_eq_right']

end Eval

/-! ## 3. Elements and subscripts

Reading the target as a location and evaluating it as an expression give the same value. -/

namespace Store

variable {σ : Store}

/-- What has been resolved resolves to itself. -/
theorem resolvesTo_resolved {u v w : Value} (h : σ.ResolvesTo u v) : σ.ResolvesTo v w ↔ w = v :=
  resolvesTo_plain h.isReference

theorem finds_read (r : Reference) {v : Value} :
    Walk.Finds (σ.read · r) v ↔ ∃ u, Walk.Finds (σ.slot · r) u ∧ σ.ResolvesTo u v :=
  Walk.finds_bind (steady_slot r) steady_resolve

theorem finds_read_of_slot {r : Reference} {u v : Value} (hr : Walk.Finds (σ.slot · r) u) :
    Walk.Finds (σ.read · r) v ↔ σ.ResolvesTo u v := by
  rw [finds_read]
  constructor
  · rintro ⟨w, hw, hv⟩
    rwa [hr.unique (steady_slot r) hw]
  · intro hv
    exact ⟨u, hr, hv⟩

/-- Reading an element: what the base reads, then the index, then what the element resolves to. -/
theorem finds_read_element (base : Reference) (i v : Value) :
    Walk.Finds (σ.read · (.element base i)) v ↔
      ∃ b, Walk.Finds (σ.read · base) b ∧ ∃ k, Walk.Finds (σ.toIndex · i) k ∧
        σ.ResolvesTo (σ.elementIn b k) v := by
  have hplace : ∀ b k, Walk.Steady fun _ => some (σ.elementIn b k) := fun b k _ _ _ => .refl _
  have hslot : ∀ u, Walk.Finds (σ.slot · (.element base i)) u ↔
      ∃ b, Walk.Finds (σ.read · base) b ∧ ∃ k, Walk.Finds (σ.toIndex · i) k ∧
        u = σ.elementIn b k := by
    intro u
    rw [← Walk.finds_succ (steady_slot _)]
    simp only [slot_element]
    refine (Walk.finds_bind (steady_read base) fun b => (steady_toIndex i).bind (hplace b)).trans ?_
    apply exists_congr
    intro b
    apply and_congr_right
    intro _
    refine (Walk.finds_bind (steady_toIndex i) (hplace b)).trans ?_
    simp only [Walk.finds_pure]
  rw [finds_read]
  constructor
  · rintro ⟨u, hu, hv⟩
    obtain ⟨b, hb, k, hk, rfl⟩ := (hslot u).1 hu
    exact ⟨b, hb, k, hk, hv⟩
  · rintro ⟨b, hb, k, hk, hv⟩
    exact ⟨_, (hslot _).2 ⟨b, hb, k, hk, rfl⟩, hv⟩

/-- A subscript resolves its target only where the index is one. -/
theorem finds_subscript (target i v : Value) :
    Walk.Finds (σ.subscript · target i) v ↔
      ∃ k, Walk.Finds (σ.toIndex · i) k ∧ match k with
        | some j => ∃ b, σ.ResolvesTo target b ∧ σ.ResolvesTo (σ.elementAt b j) v
        | none => v = .invalid := by
  refine (Walk.finds_bind (steady_toIndex i) fun k => ?_).trans ?_
  · cases k with
    | none => exact fun _ _ _ => .refl _
    | some j => exact (steady_resolve target).bind fun b => steady_resolve _
  · apply exists_congr
    intro k
    apply and_congr_right
    intro _
    cases k with
    | none => exact Walk.finds_pure
    | some j => exact Walk.finds_bind (steady_resolve target) fun b => steady_resolve _

/-- A subscript of what comes to an end reads an element of it. -/
theorem finds_subscript_of_resolvesTo {target b : Value} (hb : σ.ResolvesTo target b)
    (i v : Value) :
    Walk.Finds (σ.subscript · target i) v ↔
      ∃ k, Walk.Finds (σ.toIndex · i) k ∧ σ.ResolvesTo (σ.elementIn b k) v := by
  rw [finds_subscript]
  apply exists_congr
  intro k
  apply and_congr_right
  intro _
  cases k with
  | none => exact (resolvesTo_plain rfl).symm
  | some j =>
    constructor
    · rintro ⟨b', hb', hv⟩
      rwa [Walk.Finds.unique (steady_resolve target) hb hb']
    · intro hv
      exact ⟨b, hb, hv⟩

end Store

namespace Eval

theorem isReference_of_isScalar {v : Value} (h : v.isScalar = true) : v.isReference = false := by
  cases v with
  | reference r => cases h
  | _ => rfl

theorem steady_store (line : Nat) (target : Reference) (v : Value) :
    Steady fun n => (do placedAt line (write n target v); return v : Eval Value) :=
  ((steady_write target v).placedAt line).bind fun _ => steady_const _

theorem steady_arith (op : ArithOp) (current w : Value) :
    Steady fun n => (look (·.arith n op current w) : Eval Value) :=
  steady_look fun σ _ _ hnm => σ.arith_below hnm op current w

/-- A value that is no location refuses the assignment, whatever the old value was. -/
theorem ends_refused {op : ArithOp} {τ : Store} {u current w : Value} (line : Nat)
    (harith : Walk.Halts (τ.arith · op current w)) {o : Outcome Value} :
    Ends (fun n => do
      let v ← look (·.arith n op current w)
      placedAt line (write n (.direct u) v)
      return v) τ o ↔ o = .failed (.place line (.unplaced (.notAssignable u.typeName))) τ := by
  rw [ends_bind_of_observes (steady_arith op current w) (steady_store line (.direct u))
    fun n => .look _]
  obtain ⟨v, hv⟩ := harith.finds
  constructor
  · rintro ⟨v', -, -, n, hn⟩
    exact hn.symm
  · rintro rfl
    exact ⟨v, ends_look.2 ⟨v, hv, rfl⟩, nofun, 0, rfl⟩

section Assignments

variable [Host] {env : Env} {σ τ : Store} {e l r : Expr}

/-! ## 4. Plain expressions come to an end

Nothing in a plain expression loops, so it only takes an end of all chains of references, and of all
comparisons. -/

theorem halts_locate_of_value (hnot : e.namesLocation = false) (heval : Halts (eval · env e) σ) :
    Halts (locate · env e) σ := by
  apply Halts.succ
  simp only [locate_succ_of_value hnot]
  exact .bind heval fun u => .pure _

theorem halts_unary (hσ : σ.Grounded) {op : UnaryOp} (hop : op.assigns = false)
    (heval : Halts (eval · env e) σ) (hlocate : Halts (locate · env e) σ) (pos : Position) :
    Halts (eval · env (.unary op e pos)) σ := by
  apply Halts.succ
  cases op with
  | plus | neg => exact .bind heval fun v => .look (.map (hσ.halts_unaryOperand v) _)
  | not => exact .bind heval fun v => .look (.map (hσ.halts_toBool v) _)
  | bitNot => exact .bind heval fun v => .look (.map (hσ.halts_toInt v) _)
  | step op => cases hop
  | ref =>
    refine .bind hlocate fun t => ?_
    cases t <;> exact .pure _

theorem halts_binary (hσ : σ.Grounded) (hcompare : ∀ v w, Walk.Halts (σ.compare · v w))
    {op : BinaryOp} (hop : op.assigns = false) (hl : Halts (eval · env l) σ)
    (hr : Halts (eval · env r) σ) (pos : Position) :
    Halts (eval · env (.binary op l r pos)) σ := by
  apply Halts.succ
  have hsecond : Halts (fun n => do let w ← eval n env r; return .bool (← look (·.toBool n w)) :
      Nat → Eval Value) σ :=
    .bind hr fun w => .bind (.look (hσ.halts_toBool w)) fun _ => .pure _
  cases op with
  | arith op => exact .bind hl fun v => .bind hr fun w => .look (hσ.halts_arith op v w)
  | relation op =>
    exact .bind hl fun v => .bind hr fun w => .look (.map (hσ.halts_relation hcompare op v w) _)
  | spaceship => exact .bind hl fun v => .bind hr fun w => .look (.map (hcompare v w) _)
  | and => exact .bind hl fun v => .bind (.look (hσ.halts_toBool v)) fun b => .ite hsecond (.pure _)
  | or => exact .bind hl fun v => .bind (.look (hσ.halts_toBool v)) fun b => .ite (.pure _) hsecond
  | assign | update => cases hop

/-- A plain expression has a value and a location in every store in which references and comparisons
come to an end. -/
theorem halts_of_plain (he : e.Plain) (env : Env) (hσ : σ.Grounded)
    (hcompare : ∀ v w, Walk.Halts (σ.compare · v w)) :
    Halts (eval · env e) σ ∧ Halts (locate · env e) σ := by
  induction he with
  | @scalar e v hv =>
    have heval : Halts (eval · env e) σ := by
      apply Halts.succ
      simp only [eval_scalar hv]
      exact .pure v
    exact ⟨heval, halts_locate_of_value (namesLocation_scalar hv) heval⟩
  | var x pos => exact ⟨.succ (.look (hσ.settles_lookup env x).halts), .succ (.pure _)⟩
  | unary pos hop _ ih =>
    have heval := halts_unary hσ hop ih.1 ih.2 pos
    exact ⟨heval, halts_locate_of_value rfl heval⟩
  | binary pos hop _ _ ihl ihr =>
    have heval := halts_binary hσ hcompare hop ihl.1 ihr.1 pos
    exact ⟨heval, halts_locate_of_value rfl heval⟩
  | ternary pos _ _ _ ihc iht ihf =>
    have htest : ∀ v, Halts (fun n => (look (·.toBool n v) : Eval Bool)) σ :=
      fun v => .look (hσ.halts_toBool v)
    exact ⟨.succ (.bind ihc.1 fun v => .bind (htest v) fun b => .ite iht.1 ihf.1),
      .succ (.bind ihc.1 fun v => .bind (htest v) fun b => .ite iht.2 ihf.2)⟩
  | subscript pos _ _ iht ihi =>
    exact ⟨.succ (.bind iht.1 fun v => .bind ihi.1 fun i => .look (hσ.halts_subscript v i)),
      .succ (.bind iht.2 fun base => .bind ihi.1 fun i => .pure _)⟩

/-! ## 5. Values that are references -/

theorem isReference_of_unary {op : UnaryOp} (hop : op.assigns = false) (href : op ≠ .ref)
    {pos : Position} {u : Value} (h : Ends (eval · env (.unary op e pos)) σ (.done u σ)) :
    u.isReference = false := by
  apply isReference_of_isScalar
  refine h.gives (P := (·.isScalar = true)) rfl fun n => ?_
  cases op with
  | plus | neg =>
    exact .bind fun v => .look fun σ w hw =>
      Store.isScalar_of_map (fun _ => Value.isScalar_ofNumber _) hw
  | not | bitNot => exact .bind fun v => .look fun σ w hw => Store.isScalar_of_map (fun _ => rfl) hw
  | step op => cases hop
  | ref => exact absurd rfl href

theorem isReference_of_binary {op : BinaryOp} (hop : op.assigns = false)
    {pos : Position} {u : Value} (h : Ends (eval · env (.binary op l r pos)) σ (.done u σ)) :
    u.isReference = false := by
  apply isReference_of_isScalar
  refine h.gives (P := (·.isScalar = true)) rfl fun n => ?_
  cases op with
  | arith op => exact .bind fun v => .bind fun w => .look fun σ x hx => Store.isScalar_of_arith hx
  | relation op | spaceship =>
    exact .bind fun v => .bind fun w => .look fun σ x hx => Store.isScalar_of_map (fun _ => rfl) hx
  | and =>
    exact .bind fun v => .bind fun b => .ite (.bind fun w => .bind fun b => .pure rfl) (.pure rfl)
  | or =>
    exact .bind fun v => .bind fun b => .ite (.pure rfl) (.bind fun w => .bind fun b => .pure rfl)
  | assign | update => cases hop

variable [Host.Steady]

/-- The value of a plain expression is no reference, unless the expression takes one and names no
location. -/
theorem plain_or_direct (he : e.Plain) {u : Value} (h : Ends (eval · env e) σ (.done u σ)) :
    u.isReference = false ∨ e.takesReference = true ∧
    Ends (locate · env e) σ (.done (.direct u) σ) := by
  induction he with
  | @scalar e v hv =>
    have hvalue : v.isReference = false := by
      cases e <;> cases hv <;> rfl
    refine .inl (h.gives (P := (·.isReference = false)) rfl fun n => ?_)
    rw [eval_scalar hv]
    exact .pure hvalue
  | var x pos => exact .inl ((ends_eval_var x pos).1 h).isReference
  | @unary op e pos hop he _ =>
    by_cases href : op = .ref
    · subst href
      exact .inr ⟨rfl, (ends_locate_of_value (.unary pos hop he) rfl).2 ⟨u, h, rfl⟩⟩
    · exact .inl (isReference_of_unary hop href h)
  | binary pos hop _ _ _ _ => exact .inl (isReference_of_binary hop h)
  | ternary pos hc ht hf _ iht ihf =>
    obtain ⟨v, hv, b, hb, hbranch⟩ := (ends_eval_ternary hc pos).1 h
    cases b with
    | true =>
      rcases iht hbranch with hplain | ⟨htakes, hlocate⟩
      · exact .inl hplain
      · exact .inr ⟨by simp [Expr.takesReference, htakes],
          (ends_locate_ternary hc pos).2 ⟨v, hv, true, hb, hlocate⟩⟩
    | false =>
      rcases ihf hbranch with hplain | ⟨htakes, hlocate⟩
      · exact .inl hplain
      · exact .inr ⟨by simp [Expr.takesReference, htakes],
          (ends_locate_ternary hc pos).2 ⟨v, hv, false, hb, hlocate⟩⟩
  -- What a subscript gives was resolved.
  | subscript pos ht hi _ _ =>
    obtain ⟨v, -, i, -, hu⟩ := (ends_eval_subscript ht hi pos).1 h
    obtain ⟨k, -, hu⟩ := (Store.finds_subscript v i u).1 hu
    cases k with
    | none =>
      rw [hu]
      exact .inl rfl
    | some j =>
      obtain ⟨b, -, hu⟩ := hu
      exact .inl hu.isReference

/-! ## 6. The location of an expression reads its value

Going from the location to the value is the easy direction, since the location reads all that the
value needs.  In the other direction the location of a subscript also resolves its target where the
index is none. -/

theorem reads_iff_of_value (he : e.Plain) (hnot : e.namesLocation = false) (v : Value) :
    (∃ t, Ends (locate · env e) σ (.done t σ) ∧ Walk.Finds (σ.read · t) v) ↔
      ∃ u, Ends (eval · env e) σ (.done u σ) ∧ σ.ResolvesTo u v := by
  have hread : ∀ u, Walk.Finds (σ.read · (.direct u)) v ↔ σ.ResolvesTo u v :=
    fun u => Store.finds_read_of_slot ⟨1, rfl⟩
  simp only [ends_locate_of_value he hnot]
  constructor
  · rintro ⟨t, ⟨u, hu, rfl⟩, hv⟩
    exact ⟨u, hu, (hread u).1 hv⟩
  · rintro ⟨u, hu, hv⟩
    exact ⟨_, ⟨u, hu, rfl⟩, (hread u).2 hv⟩

/-- Finding the location of a plain expression and reading it gives what evaluating the expression
gives, once references are followed.  The location of a subscript reads its target even where the
index is none, so the target has to come to an end. -/
theorem reads_iff (he : e.Plain) (hσ : e.indexesReference = true → σ.Grounded) (v : Value) :
    (∃ t, Ends (locate · env e) σ (.done t σ) ∧ Walk.Finds (σ.read · t) v) ↔
      ∃ u, Ends (eval · env e) σ (.done u σ) ∧ σ.ResolvesTo u v := by
  -- Only variables, subscripts and choices are located in a way of their own.
  induction he generalizing v with
  | scalar hv => exact reads_iff_of_value (.scalar hv) (namesLocation_scalar hv) v
  | unary pos hop he _ => exact reads_iff_of_value (.unary pos hop he) rfl v
  | binary pos hop hl hr _ _ => exact reads_iff_of_value (.binary pos hop hl hr) rfl v
  | var x pos =>
    have hread : ∀ v, Walk.Finds (σ.read · (.binding env x)) v ↔
        σ.ResolvesTo ((σ.lookup env x).getD .invalid) v :=
      fun v => Store.finds_read_of_slot ⟨1, rfl⟩
    simp only [ends_locate_var, ends_eval_var]
    constructor
    · rintro ⟨t, rfl, hv⟩
      have hlookup := (hread v).1 hv
      exact ⟨v, hlookup, (Store.resolvesTo_resolved hlookup).2 rfl⟩
    · rintro ⟨u, hu, hv⟩
      rw [(Store.resolvesTo_resolved hu).1 hv]
      exact ⟨_, rfl, (hread u).2 hu⟩
  | ternary pos hc ht hf _ iht ihf =>
    have hσt := fun h : _ = true => hσ (Bool.or_eq_true_iff.2 (.inl h))
    have hσf := fun h : _ = true => hσ (Bool.or_eq_true_iff.2 (.inr h))
    simp only [ends_locate_ternary hc, ends_eval_ternary hc]
    constructor
    · rintro ⟨t, ⟨w, hw, b, hb, hlocate⟩, hv⟩
      cases b with
      | true =>
        obtain ⟨u, heval, hu⟩ := (iht hσt v).1 ⟨t, hlocate, hv⟩
        exact ⟨u, ⟨w, hw, true, hb, heval⟩, hu⟩
      | false =>
        obtain ⟨u, heval, hu⟩ := (ihf hσf v).1 ⟨t, hlocate, hv⟩
        exact ⟨u, ⟨w, hw, false, hb, heval⟩, hu⟩
    · rintro ⟨u, ⟨w, hw, b, hb, heval⟩, hv⟩
      cases b with
      | true =>
        obtain ⟨t, hlocate, ht⟩ := (iht hσt v).2 ⟨u, heval, hv⟩
        exact ⟨t, ⟨w, hw, true, hb, hlocate⟩, ht⟩
      | false =>
        obtain ⟨t, hlocate, ht⟩ := (ihf hσf v).2 ⟨u, heval, hv⟩
        exact ⟨t, ⟨w, hw, false, hb, hlocate⟩, ht⟩
  | subscript pos ht hi iht _ =>
    have hσt := fun h : _ = true => hσ (Bool.or_eq_true_iff.2 (.inr h))
    simp only [ends_locate_subscript ht hi, ends_eval_subscript ht hi]
    constructor
    · rintro ⟨t, ⟨base, hbase, i, hindex, rfl⟩, hv⟩
      obtain ⟨b, hb, k, hk, hv⟩ := (Store.finds_read_element base i v).1 hv
      obtain ⟨u, hu, hub⟩ := (iht hσt b).1 ⟨base, hbase, hb⟩
      exact ⟨v, ⟨u, hu, i, hindex, (Store.finds_subscript_of_resolvesTo hub i v).2 ⟨k, hk, hv⟩⟩,
        (Store.resolvesTo_resolved hv).2 rfl⟩
    · rintro ⟨w, ⟨u, hu, i, hindex, hw⟩, hv⟩
      -- A target that is no reference is its own value; any other one comes to an end by
      -- assumption.
      obtain ⟨b, hub⟩ : σ.Settles u := by
        rcases plain_or_direct ht hu with hplain | ⟨htakes, -⟩
        · exact Store.settles_of_plain hplain
        · exact (hσ (Bool.or_eq_true_iff.2 (.inl htakes))).settles u
      obtain ⟨k, hk, hw⟩ := (Store.finds_subscript_of_resolvesTo hub i w).1 hw
      rw [(Store.resolvesTo_resolved hw).1 hv]
      obtain ⟨base, hbase, hb⟩ := (iht hσt b).2 ⟨u, hu, hub⟩
      exact ⟨_, ⟨base, hbase, i, hindex, rfl⟩,
        (Store.finds_read_element base i w).2 ⟨b, hb, k, hk, hw⟩⟩

/-! ## 7. The assignments

Both forms find the location first.  The one reads it, the other evaluates the left side, and both
do so before the right side. -/

/-- What is left of either assignment once the location and the old value are known. -/
def assignResult (op : ArithOp) (r : Expr) (env : Env) (line : Nat) (target : Reference)
    (current : Value) (n : Nat) : Eval Value := do
  let w ← eval n env r
  let v ← look (·.arith n op current w)
  placedAt line (write n target v)
  return v

variable {op : ArithOp} {pos : Position}

theorem steady_assignResult (line : Nat) (target : Reference) (current : Value) :
    Steady (assignResult op r env line target current) :=
  (steady_eval env r).bind fun w => (steady_arith op current w).bind (steady_store line target)

/-- The short form: the location, what it reads, and the rest. -/
theorem ends_update (hl : l.Plain) {o : Outcome Value} :
    Ends (eval · env (.binary (.update op) l r pos)) σ o ↔
      ∃ t, Ends (locate · env l) σ (.done t σ) ∧ ∃ current, Walk.Finds (σ.read · t) current ∧
        Ends (assignResult op r env pos.line t current) σ o := by
  have hread : ∀ t, Steady fun n => (look (·.read n t) : Eval Value) :=
    fun t => steady_look fun σ _ _ hnm => σ.read_below hnm t
  rw [← ends_succ (steady_eval env _)]
  refine (ends_bind_of_observes (steady_locate env l)
    (fun t => (hread t).bind (steady_assignResult pos.line t))
    (observes_of_plain hl env).2).trans ?_
  apply exists_congr
  intro t
  apply and_congr_right
  intro _
  refine (ends_bind_of_observes (hread t) (steady_assignResult pos.line t)
    fun n => .look _).trans ?_
  simp only [ends_look, Outcome.done.injEq, and_true, exists_eq_right']

/-- The long form: the location, the value of the left side, and the rest. -/
theorem ends_expansion (hl : l.Plain) (pos' : Position) {o : Outcome Value} :
    Ends (eval · env (.binary .assign l (.binary (.arith op) l r pos') pos)) σ o ↔
      ∃ t, Ends (locate · env l) σ (.done t σ) ∧ ∃ u, Ends (eval · env l) σ (.done u σ) ∧
        Ends (assignResult op r env pos.line t u) σ o := by
  have hvalue : Steady (eval · env (.binary (.arith op) l r pos')) := steady_eval env _
  rw [← ends_succ (steady_eval env _)]
  refine (ends_bind_of_observes (steady_locate env l)
    (fun t => hvalue.bind (steady_store pos.line t))
    (observes_of_plain hl env).2).trans ?_
  apply exists_congr
  intro t
  apply and_congr_right
  intro _
  -- The operands are evaluated with less fuel than the store is written with; what comes of it is
  -- the same.
  let operands (n : Nat) : Eval Value := do
    let u ← eval n env l
    let w ← eval n env r
    look (·.arith n op u w)
  have hoperands : Steady operands :=
    (steady_eval env l).bind fun u => (steady_eval env r).bind (steady_arith op u)
  have hsame : SameEndings (eval · env (.binary (.arith op) l r pos')) operands σ :=
    sameEndings_of_succ rfl fun n => rfl
  refine (hsame.bind hvalue hoperands (steady_store pos.line t) o).trans ?_
  simp only [operands, bind_assoc]
  exact ends_bind_of_observes (steady_eval env l) (steady_assignResult pos.line t)
    (observes_of_plain hl env).1

/-- Where the left side is no location, the old value makes no difference. -/
theorem ends_assignResult_direct {u current current' : Value} (line : Nat)
    (hafter : ∀ w τ, Ends (eval · env r) σ (.done w τ) → τ.Grounded) {o : Outcome Value} :
    Ends (assignResult op r env line (.direct u) current) σ o ↔
      Ends (assignResult op r env line (.direct u) current') σ o := by
  have hrest : ∀ current w, Steady fun n => (do
      let v ← look (·.arith n op current w)
      placedAt line (write n (.direct u) v)
      return v : Eval Value) :=
        fun current w => (steady_arith op current w).bind (steady_store line _)
  -- Either the right side fails, or it gives something and the write is refused.
  have hsplit : ∀ current, Ends (assignResult op r env line (.direct u) current) σ o ↔
      (∃ w τ, Ends (eval · env r) σ (.done w τ) ∧
        o = .failed (.place line (.unplaced (.notAssignable u.typeName))) τ) ∨
      ∃ e τ, Ends (eval · env r) σ (.failed e τ) ∧ o = .failed e τ := by
    intro current
    refine (ends_bind (steady_eval env r) (hrest current)).trans (or_congr_left ?_)
    apply exists_congr
    intro w
    apply exists_congr
    intro τ
    apply and_congr_right
    intro hr
    exact ends_refused line ((hafter w τ hr).halts_arith op current w)
  rw [hsplit current, hsplit current']

/-- An updating assignment and the assignment that spells it out end alike, whatever the right side
does. -/
theorem sameEndings_update (hl : l.Plain) (op : ArithOp) (pos pos' : Position)
    (hindexes : l.indexesReference = true → σ.Grounded)
    (hgrounded : l.takesReference = true →
      σ.Grounded ∧ ∀ w τ, Ends (eval · env r) σ (.done w τ) → τ.Grounded) :
    SameEndings (eval · env (.binary (.update op) l r pos))
      (eval · env (.binary .assign l (.binary (.arith op) l r pos') pos)) σ := by
  intro o
  rw [ends_update hl, ends_expansion hl]
  apply exists_congr
  intro t
  apply and_congr_right
  intro ht
  constructor
  · rintro ⟨current, hcurrent, hend⟩
    obtain ⟨u, hu, hresolves⟩ := (reads_iff hl hindexes current).1 ⟨t, ht, hcurrent⟩
    refine ⟨u, hu, ?_⟩
    rcases plain_or_direct hl hu with hplain | ⟨htakes, hdirect⟩
    · rwa [← (Store.resolvesTo_plain hplain).1 hresolves]
    · cases ht.unique (steady_locate env l) hdirect
      exact (ends_assignResult_direct pos.line (hgrounded htakes).2).1 hend
  · rintro ⟨u, hu, hend⟩
    -- The old value is what the left side evaluates to, or else it does not matter.
    rcases plain_or_direct hl hu with hplain | ⟨htakes, hdirect⟩
    · obtain ⟨t', ht', hread⟩ :=
        (reads_iff hl hindexes u).2 ⟨u, hu, (Store.resolvesTo_plain hplain).2 rfl⟩
      cases ht.unique (steady_locate env l) ht'
      exact ⟨u, hread, hend⟩
    · cases ht.unique (steady_locate env l) hdirect
      obtain ⟨current, hcurrent⟩ := (hgrounded htakes).1.settles u
      exact ⟨current, (Store.finds_read_of_slot ⟨1, rfl⟩).2 hcurrent,
        (ends_assignResult_direct pos.line (hgrounded htakes).2).1 hend⟩

/-- An updating assignment is the assignment that it abbreviates: whatever the right side does, both
end with the same value or error and in the same store.  Behind this, evaluating the left side and
reading its location give the same, change nothing and do not fail; and they give something wherever
references and comparisons come to an end.  A left side that takes a reference is read at different
times, so for such a one references must come to an end before and after the right side; and a left
side that takes an element of a reference is read to its end only by the location, so for such a one
references must come to an end before. -/
theorem update_abbreviates_assignment {l : Expr} (hl : l.Plain) (op : ArithOp) (r : Expr)
    (env : Env) (σ : Store) (pos pos' : Position)
    (hindexes : l.indexesReference = true → σ.Grounded)
    (hgrounded : l.takesReference = true →
      σ.Grounded ∧ ∀ w τ, Ends (eval · env r) σ (.done w τ) → τ.Grounded) :
    SameEndings (eval · env (.binary (.update op) l r pos))
      (eval · env (.binary .assign l (.binary (.arith op) l r pos') pos)) σ ∧
    (∀ n, Observes (eval n env l) ∧ Observes (locate n env l)) ∧
    (∀ v, (∃ t, Ends (locate · env l) σ (.done t σ) ∧ Walk.Finds (σ.read · t) v) ↔
      ∃ u, Ends (eval · env l) σ (.done u σ) ∧ σ.ResolvesTo u v) ∧
    (σ.Grounded → (∀ v w, Walk.Halts (σ.compare · v w)) →
      ∃ v u, Ends (eval · env l) σ (.done u σ) ∧ σ.ResolvesTo u v) := by
  refine ⟨sameEndings_update hl op pos pos' hindexes hgrounded, ?_, reads_iff hl hindexes, ?_⟩
  · intro n
    exact ⟨(observes_of_plain hl env).1 n, (observes_of_plain hl env).2 n⟩
  · intro hσ hcompare
    obtain ⟨u, hu⟩ := (halts_of_plain hl env hσ hcompare).1.ends
    obtain ⟨v, hv⟩ := hσ.settles u
    exact ⟨v, u, hu, hv⟩

end Assignments

def indexed : Store where
  arrays := #[#[.int 3, .int 4]]
  scopes := #[⟨[("x", .array ⟨0⟩), ("i", .int 1)]⟩]
  functions := #[]

/-- The right side changes the index, but the element that was read is the one that is written.  A
reference is no place to write to, in either form. -/
theorem indexed_update :
    let root : Env := ⟨⟨0⟩, []⟩
    let l : Expr := .subscript (.var "x" .start) (.var "i" .start) .start
    let r : Expr := .binary .assign (.var "i" .start) (.int 5 .start) .start
    let choice : Expr := .ternary (.var "i" .start) (.unary .ref l .start) l .start
    (∃ τ, Ends (eval · root (.binary (.update .add) l r .start)) indexed (.done (.int 9) τ) ∧
      τ.items ⟨0⟩ = #[.int 3, .int 9]) ∧
    SameEndings (eval · root (.binary (.update .add) l r .start))
      (eval · root (.binary .assign l (.binary (.arith .add) l r .start) .start)) indexed ∧
    choice.takesReference = true ∧ indexed.Grounded ∧
    SameEndings (eval · root (.binary (.update .add) choice (.int 5 .start) .start))
      (eval · root (.binary .assign choice (.binary (.arith .add) choice (.int 5 .start) .start)
        .start)) indexed := by
  intro root l r choice
  have hl : l.Plain := .subscript .start (.var "x" .start) (.var "i" .start)
  have hchoice : choice.Plain := .ternary .start (.var "i" .start) (.unary .start rfl hl) hl
  have hgrounded : indexed.Grounded :=
    Store.grounded_of_plain (by decide +kernel) (by decide +kernel)
  have hafter : ∀ w τ, Ends (eval · root (.int 5 .start)) indexed (.done w τ) → τ.Grounded := by
    intro w τ h
    have hplain : (Expr.int 5 .start).Plain := .scalar rfl
    obtain ⟨_, hdone⟩ := h.observed (observes_of_plain hplain root).1
    cases hdone
    exact hgrounded
  exact ⟨⟨_, ⟨nofun, 9, rfl⟩, by decide +kernel⟩,
    (update_abbreviates_assignment hl .add r root indexed .start .start nofun nofun).1,
    rfl, hgrounded,
    (update_abbreviates_assignment hchoice .add (.int 5 .start) root indexed .start .start
      (fun _ => hgrounded) fun _ => ⟨hgrounded, hafter⟩).1⟩

end Eval
end Scriptlet
