import Scriptlet.Proofs.Endings
import Scriptlet.SampleHost

/-!
# Where a switch starts, and what it runs from there

The labels of a switch are read as one list of cases in the order of the source, each with the
sections from its own on.  A search tests them one after the other: it starts at the first case
whose test succeeds, it tests nothing after that one, and only a search without any match falls back
to the default, wherever that stands (`Flow.Search`).  What runs from the start is the one list of
all the statements of the start and of the sections after it (`Eval.switch_runs_on_from_start`).
The value may differ, but only by a section without statements.

Section §4.8 of the specification describes the same as falling through from the section that
matches.
-/

namespace Scriptlet

def Label.case? : Label → Option Expr
  | .case e => some e
  | .default => none

/-- A break ends the switch, and nothing around it. -/
def Signal.afterBreak : Signal → Signal
  | .breaking => .normal
  | signal => signal

namespace Flow

def afterBreak (flow : Flow) : Flow := ⟨flow.value, flow.signal.afterBreak⟩

/-! ## 1. The search for the start

The evaluator goes section by section, and keeps the first default aside in case that nothing
matches. -/

/-- The cases in the order of the source, each with the sections from its own on. -/
def cases : List Section → List (Expr × List Section)
  | [] => []
  | s :: rest => (s.labels.filterMap Label.case?).map (·, s :: rest) ++ cases rest

def fromDefault (sections : List Section) : List Section :=
  sections.dropWhile fun s => !s.labels.any isDefault

/-- The tests of these cases fail one after the other, and lead from one store to another. -/
inductive Misses (test : Expr → Eval Bool) : Store → List (Expr × List Section) → Store → Prop
  | nil {σ} : Misses test σ [] σ
  | cons {σ τ υ e start rest} :
      test e σ = .done false τ → Misses test τ rest υ → Misses test σ ((e, start) :: rest) υ

/-- How a search ends: at the first case that matches, with the default, or at a test that does not
end well. -/
inductive Search (test : Expr → Eval Bool) (sections : List Section) (σ : Store) :
    Outcome (List Section) → Prop
  | matched {before e start after τ υ} :
      Misses test σ before τ → cases sections = before ++ (e, start) :: after →
      test e τ = .done true υ → Search test sections σ (.done start υ)
  | unmatched {τ} : Misses test σ (cases sections) τ →
      Search test sections σ (.done (fromDefault sections) τ)
  | failed {before e start after τ υ err} :
      Misses test σ before τ → cases sections = before ++ (e, start) :: after →
      test e τ = .failed err υ → Search test sections σ (.failed err υ)
  | exhausted {before e start after τ} :
      Misses test σ before τ → cases sections = before ++ (e, start) :: after →
      test e τ = .exhausted → Search test sections σ .exhausted

variable {test : Expr → Eval Bool} {σ τ : Store}

def firstMatch (test : Expr → Eval Bool) (otherwise : List Section) :
    List (Expr × List Section) → Eval (List Section)
  | [] => return otherwise
  | (e, start) :: rest => do
    if ← test e then return start else firstMatch test otherwise rest

theorem firstMatch_labels (otherwise start : List Section) (later : List (Expr × List Section))
    (labels : List Label) :
    firstMatch test otherwise ((labels.filterMap Label.case?).map (·, start) ++ later) =
      (do if ← anyCase test labels then return start else firstMatch test otherwise later) := by
  induction labels with
  | nil => rfl
  | cons label labels ih =>
    cases label with
    | default => exact ih
    | case e =>
      simp only [List.filterMap_cons, Label.case?, List.map_cons, List.cons_append, firstMatch,
        anyCase, bind_assoc, ih]
      congr 1
      funext b
      cases b <;> rfl

/-- Section by section with a default kept aside, or case by case: the search is the same. -/
theorem select_eq_firstMatch (fallback : Option (List Section)) (sections : List Section) :
    select test fallback sections =
      firstMatch test (fallback.getD (fromDefault sections)) (cases sections) := by
  induction sections generalizing fallback with
  | nil => rfl
  | cons s rest ih =>
    rw [cases, firstMatch_labels, select]
    congr 1
    funext b
    cases b with
    | true => rfl
    | false =>
      -- A default counts only if none was kept before.
      cases hdefault : s.labels.any isDefault with
      | true =>
        have hfrom : fromDefault (s :: rest) = s :: rest := by simp [fromDefault, hdefault]
        rw [hfrom]
        have hnext := ih (fallback.or (some (s :: rest)))
        cases fallback <;> exact hnext
      | false =>
        have hfrom : fromDefault (s :: rest) = fromDefault rest := by simp [fromDefault, hdefault]
        rw [hfrom]
        exact ih fallback

theorem firstMatch_of_misses {otherwise : List Section} {before : List (Expr × List Section)}
    (h : Misses test σ before τ) (later : List (Expr × List Section)) :
    firstMatch test otherwise (before ++ later) σ = firstMatch test otherwise later τ := by
  induction h with
  | nil => rfl
  | cons htest _ ih => exact (Eval.bind_of_done htest).trans ih

theorem Search.eq_select {sections : List Section} {o : Outcome (List Section)}
    (h : Search test sections σ o) :
    select test none sections σ = o := by
  rw [select_eq_firstMatch]
  cases h with
  | matched hmisses hcases htest =>
    rw [hcases, firstMatch_of_misses hmisses]
    exact Eval.bind_of_done htest
  | unmatched hmisses =>
    rw [← List.append_nil (cases sections), firstMatch_of_misses hmisses]
    rfl
  | failed hmisses hcases htest =>
    rw [hcases, firstMatch_of_misses hmisses]
    exact Eval.bind_of_failed htest
  | exhausted hmisses hcases htest =>
    rw [hcases, firstMatch_of_misses hmisses]
    exact Eval.bind_of_exhausted htest

/-- All tests fail, or there is a first one that does not. -/
theorem misses_or_first (test : Expr → Eval Bool) (all : List (Expr × List Section)) (σ : Store) :
    (∃ τ, Misses test σ all τ) ∨ ∃ before e start after τ, all = before ++ (e, start) :: after ∧
      Misses test σ before τ ∧ ∀ υ, test e τ ≠ .done false υ := by
  induction all generalizing σ with
  | nil => exact .inl ⟨σ, .nil⟩
  | cons first rest ih =>
    obtain ⟨e, start⟩ := first
    by_cases hmiss : ∃ τ, test e σ = .done false τ
    · obtain ⟨τ, htest⟩ := hmiss
      obtain ⟨υ, hall⟩ | ⟨before, e', start', after, υ, hrest, hmisses, hstop⟩ := ih τ
      · exact .inl ⟨υ, .cons htest hall⟩
      · exact .inr ⟨(e, start) :: before, e', start', after, υ, by rw [hrest]; rfl,
          .cons htest hmisses, hstop⟩
    · exact .inr ⟨[], e, start, rest, σ, rfl, .nil, fun υ htest => hmiss ⟨υ, htest⟩⟩

theorem exists_search (test : Expr → Eval Bool) (sections : List Section) (σ : Store) :
    ∃ o, Search test sections σ o := by
  obtain ⟨τ, hall⟩ | ⟨before, e, start, after, τ, hcases, hmisses, hstop⟩ :=
    misses_or_first test (cases sections) σ
  · exact ⟨_, .unmatched hall⟩
  · cases htest : test e τ with
    | done b υ =>
      cases b with
      | true => exact ⟨_, .matched hmisses hcases htest⟩
      | false => exact absurd htest (hstop υ)
    | failed err υ => exact ⟨_, .failed hmisses hcases htest⟩
    | exhausted => exact ⟨_, .exhausted hmisses hcases htest⟩

/-! ## 2. Running on through the sections

Each section runs its statements with a fresh value, so an empty one resets the value and does
nothing else. -/

variable {exec : Stmt → Eval Flow}

/-- What comes after a statement that ended normally; any other ending stays. -/
def andThen (next : Value → Eval Flow) (flow : Flow) : Eval Flow :=
  match flow.signal with
  | .normal => next flow.value
  | _ => return flow

theorem sequence_cons (last : Value) (s : Stmt) (rest : List Stmt) :
    sequence exec last (s :: rest) = exec s >>= andThen (sequence exec · rest) := rfl

/-- Two lists of statements in a row: the second one runs where the first one ends normally. -/
theorem sequence_append (last : Value) (before after : List Stmt) :
    sequence exec last (before ++ after) =
      sequence exec last before >>= andThen (sequence exec · after) := by
  induction before generalizing last with
  | nil => rfl
  | cons s before ih =>
    rw [List.cons_append, sequence_cons, sequence_cons, bind_assoc]
    congr 1
    funext flow
    obtain ⟨v, signal⟩ := flow
    cases signal with
    | normal => exact ih v
    | returning => rfl
    | breaking => rfl
    | continuing => rfl

/-- The value before a list of statements shows only if there are none. -/
theorem sequence_of_ne_nil {body : List Stmt} (h : body ≠ []) (last last' : Value) :
    sequence exec last body = sequence exec last' body := by
  cases body with
  | nil => exact absurd rfl h
  | cons s rest => rfl

/-- Sections with statements in them run on as the one list of their statements does. -/
theorem runSections_eq_sequence {start : List Section} (h : ∀ s ∈ start, s.body ≠ [])
    (last : Value) :
    runSections (sequence exec .invalid) last start =
      afterBreak <$> sequence exec last (start.flatMap (·.body)) := by
  induction start generalizing last with
  | nil => rfl
  | cons s rest ih =>
    obtain ⟨hbody, hrest⟩ := List.forall_mem_cons.1 h
    rw [List.flatMap_cons, sequence_append, sequence_of_ne_nil hbody last .invalid, map_bind]
    apply bind_congr
    intro flow
    obtain ⟨v, signal⟩ := flow
    cases signal with
    | normal => exact ih hrest v
    | returning => rfl
    | breaking => rfl
    | continuing => rfl

/-- Sections of any kind run on as the one list of their statements does, up to the value. -/
theorem runSections_signal (start : List Section) (last last' : Value) :
    signal <$> runSections (sequence exec .invalid) last start =
      (·.signal.afterBreak) <$> sequence exec last' (start.flatMap (·.body)) := by
  induction start generalizing last last' with
  | nil => rfl
  | cons s rest ih =>
    rw [List.flatMap_cons]
    by_cases hbody : s.body = []
    -- An empty section changes the value, which the signal does not show.
    · rw [runSections, hbody]
      exact ih .invalid last'
    · rw [sequence_append, sequence_of_ne_nil hbody last' .invalid, runSections, map_bind, map_bind]
      apply bind_congr
      intro flow
      obtain ⟨v, signal⟩ := flow
      cases signal with
      | normal => exact ih v v
      | returning => rfl
      | breaking => rfl
      | continuing => rfl

end Flow

/-! ## 3. The statement -/

namespace Eval

def caseTest [Host] (n : Nat) (env : Env) (v : Value) (label : Expr) : Eval Bool := do
  let w ← eval n env label
  look (·.looseEq n w v)

variable {n : Nat} {env : Env} {subject : Expr} {sections : List Section} {pos : Position}
  {σ τ υ : Store} {v : Value}

theorem exec_switch [Host] (hsubject : eval n env subject σ = .done v τ) :
    exec (n + 1) env (.switch subject sections pos) σ = (do
      let start ← Flow.select (caseTest n env v) none sections
      Flow.runSections (Flow.sequence (exec n env) .invalid) .invalid start : Eval Flow) τ :=
  bind_of_done hsubject

/-- A switch evaluates its subject once and then searches its labels.  An error in either ends it.
From the start it runs on as the one list of the statements that are left: with the same effects,
the same error and the same signal but for a break, and with the same value if there is no section
without statements. -/
theorem switch_runs_on_from_start [Host] (n : Nat) (env : Env) (subject : Expr)
    (sections : List Section) (pos : Position) (σ : Store) :
    (∀ e τ, eval n env subject σ = .failed e τ →
      exec (n + 1) env (.switch subject sections pos) σ = .failed e τ) ∧
    ∀ v τ, eval n env subject σ = .done v τ →
      (∃ o, Flow.Search (caseTest n env v) sections τ o) ∧
      (∀ e υ, Flow.Search (caseTest n env v) sections τ (.failed e υ) →
        exec (n + 1) env (.switch subject sections pos) σ = .failed e υ) ∧
      ∀ start υ, Flow.Search (caseTest n env v) sections τ (.done start υ) →
        (start = [] → exec (n + 1) env (.switch subject sections pos) σ =
          .done ⟨.invalid, .normal⟩ υ) ∧
        (Flow.signal <$> exec (n + 1) env (.switch subject sections pos)) σ =
          ((·.signal.afterBreak) <$>
            Flow.sequence (exec n env) .invalid (start.flatMap (·.body))) υ ∧
        ((∀ s ∈ start, s.body ≠ []) → exec (n + 1) env (.switch subject sections pos) σ =
          (Flow.afterBreak <$>
            Flow.sequence (exec n env) .invalid (start.flatMap (·.body))) υ) := by
  constructor
  · intro e τ hsubject
    exact bind_of_failed hsubject
  intro v τ hsubject
  refine ⟨Flow.exists_search _ sections τ, ?_, ?_⟩
  · intro e υ hsearch
    exact (exec_switch hsubject).trans (bind_of_failed hsearch.eq_select)
  intro start υ hsearch
  have hruns : exec (n + 1) env (.switch subject sections pos) σ =
      Flow.runSections (Flow.sequence (exec n env) .invalid) .invalid start υ :=
    (exec_switch hsubject).trans (bind_of_done hsearch.eq_select)
  refine ⟨?_, ?_, ?_⟩
  · rintro rfl
    exact hruns
  · rw [← Flow.runSections_signal start .invalid .invalid]
    exact map_congr_at _ hruns
  · intro hbodies
    rw [hruns, Flow.runSections_eq_sequence hbodies]

def countedSections : List Section :=
  let assign (n : Int64) : Expr := .binary .assign (.var "x" .start) (.int n .start) .start
  [.mk [.case (assign 1)] [.expr (assign 10)],
   .mk [.default] [.expr (assign 20)],
   .mk [.case (.int 3 .start), .case (.int 2 .start)] [.expr (assign 30)],
   .mk [.case (assign 40)] [.breakLoop .start]]

/-- The first case assigns before the third one matches, and nothing after that is tested. -/
theorem countedSections_run_on :
    let root : Env := ⟨⟨0⟩, []⟩
    let σ : Store := ⟨#[], #[⟨[("x", .int 2)]⟩], #[]⟩
    let υ : Store := ⟨#[], #[⟨[("x", .int 1)]⟩], #[]⟩
    Flow.Search (caseTest 9 root (.int 2)) countedSections σ (.done (countedSections.drop 2) υ) ∧
    (∀ s ∈ countedSections.drop 2, s.body ≠ []) ∧
    exec 10 root (.switch (.var "x" .start) countedSections .start) σ =
      (Flow.afterBreak <$> Flow.sequence (exec 9 root) .invalid
        ((countedSections.drop 2).flatMap (·.body))) υ := by
  intro root σ υ
  have hmisses : Flow.Misses (caseTest 9 root (.int 2)) σ ((Flow.cases countedSections).take 2) υ :=
    .cons rfl (.cons rfl .nil)
  have hsearch : Flow.Search (caseTest 9 root (.int 2)) countedSections σ
      (.done (countedSections.drop 2) υ) :=
    .matched hmisses rfl rfl
  have hbodies : ∀ s ∈ countedSections.drop 2, s.body ≠ [] := by
    simp [countedSections, Section.body]
  obtain ⟨-, hswitch⟩ :=
    switch_runs_on_from_start 9 root (.var "x" .start) countedSections .start σ
  obtain ⟨-, -, hstart⟩ := hswitch (.int 2) σ rfl
  exact ⟨hsearch, hbodies, (hstart _ υ hsearch).2.2 hbodies⟩

end Eval
end Scriptlet
