import Scriptlet.Error
import Scriptlet.Store

/-!
# Computations on a store

A computation ends with a value or with an error, in either case with the store as it is then, or it
runs out of fuel.  The last is kept apart, so that "it fails" never means "it was given too little
fuel".

The error is the `RuntimeError` of §7 of the specification, which ends a run at once.  That a
computation may never end is §5; fuel stands for the steps that it is given.
-/

namespace Scriptlet

inductive Outcome (α : Type) where
  | done (value : α) (store : Store)
  | failed (error : RuntimeError) (store : Store)
  | exhausted

def Eval (α : Type) : Type := Store → Outcome α

namespace Eval

instance : Monad Eval where
  pure a := fun σ => .done a σ
  bind m f := fun σ =>
    match m σ with
    | .done a τ => f a τ
    | .failed e τ => .failed e τ
    | .exhausted => .exhausted

def exhausted {α : Type} : Eval α := fun _ => .exhausted

/-- Reads the store; a reading that runs out of fuel ends the computation. -/
def look {α : Type} (f : Store → Option α) : Eval α := fun σ =>
  match f σ with
  | some a => .done a σ
  | none => .exhausted

def view {α : Type} (f : Store → α) : Eval α := fun σ => .done (f σ) σ

def alter (f : Store → Store) : Eval Unit := fun σ => .done () (f σ)

/-- Changes the store and gives a value, such as the identifier of something new. -/
def fresh {α : Type} (f : Store → α × Store) : Eval α := fun σ =>
  match f σ with
  | (a, τ) => .done a τ

/-- Fails at a line that is not known yet. -/
def fail {α : Type} (fault : Fault) : Eval α := fun σ => .failed (.unplaced fault) σ

def failAt {α : Type} (line : Nat) (fault : Fault) : Eval α := fun σ => .failed ⟨fault, line⟩ σ

/-- Places the error of a computation at a line, unless it has one. -/
def placedAt {α : Type} (line : Nat) (m : Eval α) : Eval α := fun σ =>
  match m σ with
  | .done a τ => .done a τ
  | .failed e τ => .failed (e.place line) τ
  | .exhausted => .exhausted

def forEach {α β : Type} (f : α → Eval β) : List α → Eval (List β)
  | [] => return []
  | a :: as => do
    let b ← f a
    let bs ← forEach f as
    return b :: bs

end Eval
end Scriptlet
