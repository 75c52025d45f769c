import Scriptlet.Proofs.MoreFuel
import Scriptlet.Proofs.PlacedErrors
import Scriptlet.SampleHost

/-!
# What the sample host keeps to

Results about the evaluator ask of a host what they need: that more fuel changes nothing
(`Host.Steady`), that its functions reach only what they are given (`Host.Confined`), and that some
of them leave the lines of their errors to the call (`Host.LeavesLines`).  The sample host keeps to
all three, so that none of them is asked in vain.  The functions that leave the lines alone are all
but `failAt`.
-/

namespace Scriptlet.SampleHost
open Eval

/-! ## 1. More fuel

Fuel is used for sums, for texts, for writing and for calling back. -/

section Fuel

variable {n m : Nat} (hnm : n ≤ m)
include hnm

theorem sumFrom_below (vs : List Value) (total : Value) :
    Below (sumFrom n total vs) (sumFrom m total vs) := by
  induction vs generalizing total with
  | nil => exact .refl _
  | cons v vs ih => exact .bind (.look fun σ => σ.add_below hnm total v) fun next => ih next

theorem run_below {call call' : FunctionId → List Argument → Eval Value}
    (hcall : ∀ f args, Below (call f args) (call' f args)) (f : HostFunction) (args : List Value) :
    Below (run call n f args) (run call' m f args) := by
  -- One case for each name, in the order of the definition.
  unfold run
  split
  · exact .refl _
  · exact sumFrom_below hnm args _
  · cases args with
    | nil => exact .refl _
    | cons v vs => exact .bind (.look fun σ => σ.display_below hnm v) fun _ => .refl _
  · exact .refl _
  · split
    · exact .bind (write_below hnm _ _) fun _ => .refl _
    · exact .refl _
  · refine .bind (argument_below hnm args 0) fun v => ?_
    cases v with
    | function g => exact hcall _ _
    | _ => exact .refl _
  · exact .refl _

end Fuel

instance : Host.Steady where
  run_below := run_below

/-! ## 2. Confinement -/

section Confinement

variable {p : Policy} {k : Extent} {fuel : Nat}

theorem confined_sumFrom {vs : List Value} : ∀ {k : Extent} {total : Value}, total.Within p k →
    Confined p k (sumFrom fuel total vs) := by
  induction vs with
  | nil =>
    intro k total htotal
    exact Keeps.pure fun l hl => htotal.mono hl
  | cons v vs ih =>
    intro k total _
    refine Keeps.bind (Q := fun l w => w.Within p l) (Keeps.look fun σ w _ _ hw => ?_)
      fun l w _ hw => ih hw
    exact Value.within_of_isScalar (Store.isScalar_of_add hw)

/-- The functions hand on what they are given, or make an array of it. -/
theorem confined_run {call : FunctionId → List Argument → Eval Value} {args : List Value}
    (hcall : CallConfined p call) (hargs : ∀ v ∈ args, v.Within p k) (f : HostFunction) :
    Confined p k (run call fuel f args) := by
  unfold run
  split
  · refine Keeps.bind (keeps_newArray fun v hv => hargs v (by simpa using hv)) fun l a _ ha => ?_
    exact Keeps.pure fun m hm => p.array_mono hm.1 ha
  · exact confined_sumFrom trivial
  · cases args with
    | nil => exact Keeps.fail
    | cons v vs => exact Keeps.bind Keeps.test fun _ _ _ _ => Keeps.fail
  · exact Keeps.failAt
  · split
    · next r v vs =>
      refine Keeps.bind (keeps_write (hargs (.reference r) (by simp)) (hargs v (by simp)))
        fun _ _ _ _ => ?_
      exact Confined.scalar rfl
    · exact Confined.scalar rfl
  · refine Keeps.bind (confined_argument hargs 0) fun l v hl _ => ?_
    split
    · refine hcall l _ _ fun a ha => ?_
      obtain ⟨v, hv, rfl⟩ := List.mem_map.1 ha
      exact (hargs v (List.mem_of_mem_drop hv)).mono hl
    · exact Keeps.fail
  · exact Keeps.pure fun l hl =>
      (within_getD fun v hv => hargs v (List.mem_of_mem_head? hv)).mono hl

end Confinement

instance : Host.Confined where
  run_confined hcall _ _ _ hargs f := confined_run hcall hargs f

/-! ## 3. Lines of errors -/

def LineFree (f : HostFunction) : Prop := f.name ≠ "failAt"

theorem raises_sumFrom {C : HostFunction → Prop} {L A : Nat → Prop} {fuel : Nat} (vs : List Value)
    (total : Value) : Raises C L A (sumFrom fuel total vs) fun _ => True := by
  induction vs generalizing total with
  | nil => exact .pure trivial
  | cons v vs ih => exact .bind .look fun next _ => ih next

/-- The only function that places an error itself is excluded by its name. -/
theorem leavesLines : Host.LeavesLines LineFree := by
  intro f hf L A hzero call hcall fuel args
  change Raises LineFree L A (run call fuel f args) fun _ => True
  unfold run
  split
  · exact .bind (.fresh fun _ hσ => hσ.of_functions_eq rfl) fun _ _ => .pure trivial
  · exact raises_sumFrom args _
  · cases args with
    | nil => exact .fail hzero
    | cons v vs => exact .bind .look fun _ _ => .fail hzero
  · next hname => exact absurd hname hf
  · split
    · exact .bind (raises_write hzero _ _) fun _ _ => .pure trivial
    · exact .pure trivial
  · refine .bind .look fun v _ => ?_
    split
    · exact hcall _ _
    · exact .fail hzero
  · exact .pure trivial

end Scriptlet.SampleHost
