import Scriptlet.Proofs.GroundedReadings
import Scriptlet.Proofs.SampleHostLaws

/-!
# Interpolated strings and the sums that they stand for

An interpolated string writes down the text of each part as soon as it has evaluated it.  The sum
`"" + p + q + ...`  evaluates a part, follows references, and joins its text to the string so far;
then it evaluates the next part.  So both look at a part at the same time, and a later part that
changes an array has no influence on the text that was taken of it before.  What is left is that
following references first makes no difference to the text (`Store.finds_display_iff`), and that the
left operand of every `+` is a string, so that every one joins texts (`Store.finds_add_str`).

Interpolation is that of §4.8 of the specification, and `+` with its priority for strings that of
§4.3.
-/

namespace Scriptlet

/-! ## 1. The sum of the parts -/

/-- A part as an expression of its own: a text becomes a literal, anywhere. -/
inductive Part.WrittenAs : Part → Expr → Prop
  | text (t : String) (pos : Position) : WrittenAs (.text t) (.str t pos)
  | expr (e : Expr) : WrittenAs (.expr e) e

/-- The sums that start with the empty string and add the parts of a list in order, nested to the
left.  Where their signs and literals stand is left open. -/
inductive Expr.Concatenates : List Part → Expr → Prop
  | empty (pos : Position) : Concatenates [] (.str "" pos)
  | add {parts : List Part} {part : Part} {sum e : Expr} (pos : Position) :
      Concatenates parts sum → part.WrittenAs e →
      Concatenates (parts ++ [part]) (.binary (.arith .add) sum e pos)

/-- There is such a sum for every list of parts. -/
theorem Expr.exists_concatenates (parts : List Part) : ∃ sum, Concatenates parts sum := by
  induction parts using List.reverseRecOn with
  | nil => exact ⟨_, .empty .start⟩
  | append_singleton parts part ih =>
    obtain ⟨sum, hsum⟩ := ih
    cases part with
    | text t => exact ⟨_, .add .start hsum (.text t .start)⟩
    | expr e => exact ⟨_, .add .start hsum (.expr e)⟩

/-! ## 2. Joining a text to a string -/

namespace Store

variable {σ : Store}

/-- The text of a reference is that of the value behind it, with one unit of fuel less. -/
theorem display_reference (n : Nat) (r : Reference) :
    σ.display (n + 1) (.reference r) = (σ.resolve (n + 1) (.reference r)).bind
      (Walk.render σ (σ.slot (n + 1)) n []) := rfl

/-- The text of a value is the text of the value behind it. -/
theorem finds_display_iff {v : Value} {t : String} :
    Walk.Finds (σ.display · v) t ↔ ∃ w, σ.ResolvesTo v w ∧ Walk.Finds (σ.display · w) t := by
  cases hv : v.isReference with
  | false => simp [resolvesTo_plain hv]
  | true =>
    obtain ⟨r, rfl⟩ : ∃ r, v = .reference r := by
      cases v with
      | reference r => exact ⟨r, rfl⟩
      | _ => cases hv
    constructor
    · rintro ⟨n, h⟩
      cases n with
      | zero => cases h
      | succ n =>
        obtain ⟨w, hw, htext⟩ := Option.bind_eq_some_iff.1 ((display_reference n r).symm.trans h)
        exact ⟨w, ⟨n + 1, hw⟩, n + 1, Walk.render_mono (slot_mono (Nat.le_refl _)) n.le_succ htext⟩
    · rintro ⟨w, ⟨n, hw⟩, m, htext⟩
      -- One step of fuel is spent on following the reference.
      refine ⟨max n m + 1, (display_reference _ r).trans (Option.bind_eq_some_iff.2 ⟨w, ?_, ?_⟩)⟩
      · exact resolve_mono (by omega) hw
      · exact Walk.render_mono (slot_mono (by omega)) (by omega) htext

/-- Adding anything to a string joins its text. -/
theorem finds_add_str {s : String} {w v : Value} :
    Walk.Finds (σ.add · (.str s) w) v ↔ ∃ t, Walk.Finds (σ.display · w) t ∧ v = .str (s ++ t) := by
  have hdisplay : ∀ u, Walk.Steady (σ.display · u) := fun u _ _ hnm => σ.display_below hnm u
  have hjoin : ∀ u, Walk.Steady fun n => (do return .str (s ++ (← σ.display n u)) : Option Value) :=
    fun u => (hdisplay u).bind fun t _ _ _ => .refl _
  have hsum : Walk.Finds (σ.add · (.str s) w) v ↔
      Walk.Finds (fun n => do return .str (s ++ (← σ.display n (← σ.resolve n w)))) v := by
    -- With any fuel at all, the left operand is followed to itself and has itself as its text.
    rw [← Walk.finds_succ fun _ _ hnm => σ.add_below hnm _ _]
    exact Walk.finds_succ ((steady_resolve w).bind hjoin)
  rw [hsum, Walk.finds_bind (steady_resolve w) hjoin]
  constructor
  · rintro ⟨u, hu, hv⟩
    obtain ⟨t, ht, hv⟩ := (Walk.finds_bind (hdisplay u) fun t _ _ _ => .refl _).1 hv
    exact ⟨t, finds_display_iff.2 ⟨u, hu, ht⟩, Walk.finds_pure.1 hv⟩
  · rintro ⟨t, ht, rfl⟩
    obtain ⟨u, hu, ht⟩ := finds_display_iff.1 ht
    exact ⟨u, hu, (Walk.finds_bind (hdisplay u) fun t _ _ _ => .refl _).2
      ⟨t, ht, Walk.finds_pure.2 rfl⟩⟩

end Store

/-! ## 3. One part and all parts

Texts are joined from the left in both, so it is enough to compare one more part. -/

namespace Eval

section Parts

variable {env : Env} {σ : Store} {parts : List Part} {part : Part} {sum e : Expr}

theorem steady_display (v : Value) : Steady fun n => look (·.display n v) :=
  steady_look fun σ _ _ hnm => σ.display_below hnm v

theorem steady_add (l r : Value) : Steady fun n => look (·.add n l r) :=
  steady_look fun σ _ _ hnm => σ.add_below hnm l r

theorem forEach_append_singleton {α β : Type} (f : α → Eval β) (as : List α) (a : α) :
    forEach f (as ++ [a]) = (do return (← forEach f as) ++ [← f a]) := by
  induction as with
  | nil => simp [forEach]
  | cons b as ih => simp [forEach, ih]

variable [Host]

def joinParts (env : Env) (parts : List Part) (n : Nat) : Eval Value := do
  return .str (String.join (← forEach (partText n (eval n env)) parts))

/-- The last part is evaluated last, and its text is joined at the end. -/
theorem joinParts_append_singleton (env : Env) (parts : List Part) (part : Part) :
    joinParts env (parts ++ [part]) = fun n => do
      let texts ← forEach (partText n (eval n env)) parts
      return .str (String.join texts ++ (← partText n (eval n env) part)) := by
  funext n
  simp [joinParts, forEach_append_singleton]

variable [Host.Steady]

/-- More fuel keeps the text of a part. -/
theorem steady_partText (env : Env) (part : Part) :
    Steady fun n => partText n (eval n env) part := by
  intro n m hnm
  cases part with
  | text t => exact .refl _
  | expr e => exact .bind (steady_eval env e hnm) fun v => .look fun σ => σ.display_below hnm v

/-- Written as an expression, a part has the text that it has as a part. -/
theorem sameEndings_part (h : part.WrittenAs e) (env : Env) (σ : Store) :
    SameEndings (fun n => do
      let v ← eval n env e
      look (·.display n v)) (fun n => partText n (eval n env) part) σ := by
  cases h with
  | expr e => exact fun _ => Iff.rfl
  | text t pos =>
    have hsteady : Steady fun n => (do
        let v ← eval n env (.str t pos)
        look (·.display n v)) := (steady_eval env _).bind steady_display
    intro o
    rw [← ends_succ hsteady]
    exact Iff.rfl

/-- Adding a part to a string joins the text of the part. -/
theorem sameEndings_add_part (h : part.WrittenAs e) (env : Env) (s : String) (σ : Store) :
    SameEndings (fun n => do
      let v ← eval n env e
      look (·.add n (.str s) v))
      (fun n => do return .str (s ++ (← partText n (eval n env) part))) σ := by
  have hjoin : ∀ t, Steady fun _ => (pure (.str (s ++ t)) : Eval Value) := fun t => steady_const _
  -- Once the part is evaluated, adding it and taking its text end alike in every store.
  have hoperator : ∀ v τ, SameEndings (fun n => look (·.add n (.str s) v))
      (fun n => do return .str (s ++ (← look (·.display n v)))) τ := by
    intro v τ o
    rw [ends_look, ends_bind_of_observes (steady_display v) hjoin fun n => .look _]
    simp only [ends_look, ends_pure, Store.finds_add_str, Outcome.done.injEq, and_true]
    constructor
    · rintro ⟨_, ⟨t, ht, rfl⟩, rfl⟩
      exact ⟨t, ⟨t, ht, rfl⟩, rfl⟩
    · rintro ⟨t, ⟨_, ht, rfl⟩, rfl⟩
      exact ⟨_, ⟨t, ht, rfl⟩, rfl⟩
  have hsum : SameEndings (fun n => do
      let v ← eval n env e
      look (·.add n (.str s) v)) (fun n => do
      let v ← eval n env e
      return .str (s ++ (← look (·.display n v)))) σ :=
    sameEndings_bind_right (steady_eval env e) (steady_add _)
      (fun v => (steady_display v).bind hjoin) hoperator
  have htext := (sameEndings_part h env σ).bind ((steady_eval env e).bind steady_display)
    (steady_partText env part) hjoin
  simp only [bind_assoc] at htext
  exact hsum.trans htext

theorem steady_texts (env : Env) (parts : List Part) :
    Steady fun n => forEach (partText n (eval n env)) parts :=
  fun _ _ hnm => .forEach (fun part => steady_partText env part hnm) parts

/-- The parts joined one after the other, and added up from the left. -/
theorem sameEndings_of_concatenates (h : sum.Concatenates parts) :
    SameEndings (joinParts env parts) (eval · env sum) σ := by
  induction h with
  | empty pos =>
    intro o
    rw [← ends_succ (steady_eval env _)]
    exact Iff.rfl
  | @add parts part sum e pos hsum hpart ih =>
    have hjoined : Steady (joinParts env parts) :=
      (steady_texts env parts).bind fun _ => steady_const _
    have haddend : ∀ v, Steady fun n => (do
        let w ← eval n env e
        look (·.add n v w)) := fun v => (steady_eval env e).bind (steady_add v)
    -- The sum so far is the string of the parts so far, to which the last part is added.
    have hlast : SameEndings (joinParts env (parts ++ [part])) (fun n => do
        let v ← joinParts env parts n
        let w ← eval n env e
        look (·.add n v w)) σ := by
      have hparts : SameEndings _ _ σ := sameEndings_bind_right (steady_texts env parts)
        (fun texts => (steady_partText env part).bind
          fun t => steady_const (pure (.str (String.join texts ++ t))))
        (fun texts => haddend (.str (String.join texts)))
        (fun texts τ o => (sameEndings_add_part hpart env (String.join texts) τ o).symm)
      simpa only [joinParts_append_singleton, joinParts, bind_assoc, pure_bind] using hparts
    intro o
    rw [← ends_succ (steady_eval env _)]
    exact (hlast.trans (ih.bind hjoined (steady_eval env sum) haddend)) o

/-- An interpolated string is the sum of its parts: evaluating it and evaluating the empty string
with each part added in order end with the same value or error and in the same store, or neither of
them ends. -/
theorem interpolation_is_concatenation (parts : List Part) (env : Env) (pos : Position)
    (σ : Store) :
    (∃ sum, Expr.Concatenates parts sum) ∧
    ∀ sum, Expr.Concatenates parts sum →
      SameEndings (eval · env (.interpolation parts pos)) (eval · env sum) σ :=
  ⟨Expr.exists_concatenates parts, fun _ h =>
    (sameEndings_of_succ rfl fun _ => rfl).trans (sameEndings_of_concatenates h)⟩

end Parts

def growing : Store where
  arrays := #[#[.int 1, .int 2]]
  scopes := #[⟨[("a", .array ⟨0⟩), ("push", .function ⟨0⟩)]⟩]
  functions := #[⟨"push", [⟨"array", none⟩, ⟨"value", none⟩], .native .push false⟩]

/-- The array is shown, added to itself, and shown again; each part shows it as it is then. -/
theorem growing_interpolation :
    let root : Env := ⟨⟨0⟩, []⟩
    let a : Expr := .var "a" .start
    let push : Expr := .call (.var "push" .start) [.mk none a, .mk none a] .start
    let sum : Expr := .binary (.arith .add)
      (.binary (.arith .add)
        (.binary (.arith .add) (.binary (.arith .add) (.str "" .start) a .start)
          (.str "+" .start) .start) push .start) a .start
    (∃ τ, Ends (eval · root (.interpolation [.expr a, .text "+", .expr push, .expr a] .start))
      growing (.done (.str "1,2+31,2,[...]") τ)) ∧
    SameEndings (eval · root (.interpolation [.expr a, .text "+", .expr push, .expr a] .start))
      (eval · root sum) growing := by
  intro root a push sum
  have hsum : Expr.Concatenates [.expr a, .text "+", .expr push, .expr a] sum :=
    .add _ (.add _ (.add _ (.add _ (.empty _) (.expr _)) (.text _ _)) (.expr _)) (.expr _)
  exact ⟨⟨_, nofun, 12, by with_unfolding_all rfl⟩,
    (interpolation_is_concatenation _ root .start growing).2 sum hsum⟩

end Eval
end Scriptlet
