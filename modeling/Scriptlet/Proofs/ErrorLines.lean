import Scriptlet.Proofs.ParseCache
import Scriptlet.Proofs.PlacedErrors
import Scriptlet.Proofs.SampleHostLaws

/-!
# Every runtime error of a run stands on a line of a source

A host works with a store: it makes scopes, arrays and functions, binds names, writes to locations,
calls functions and runs sources, with any number of interpreters.  The code in the store is that of
the sources it has run, so an error of a run is placed on the line of a call, an assignment or a
step in one of them.  The one thing asked of the host is that the functions it supplies leave the
lines of their errors to the calls.

That a runtime error carries a line is §7 of the specification.
-/

namespace Scriptlet

/-! ## 1. Sessions -/

section Sessions

variable [Host] (C : HostFunction → Prop)

/-- A step of a host other than a run.  The functions that it supplies are some of `C`. -/
inductive PlainStep (σ : Store) : Store → Prop
  | newScope (outer : List ScopeId) : PlainStep σ (σ.newScope outer).2
  | define (env : Env) (x : String) (v : Value) : PlainStep σ (σ.define env x v)
  | set (env : Env) (x : String) (v : Value) : PlainStep σ (σ.set env x v)
  | remove (env : Env) (x : String) : PlainStep σ (σ.remove env x)
  | newArray (items : Array Value) : PlainStep σ (σ.newArray items).2
  | replaceItems (a : ArrayId) (items : Array Value) : PlainStep σ (σ.modifyArray a fun _ => items)
  | newNative {fn : Function} : fn.isPlainNative = true → (∀ f ∈ fn.hostCode?, C f) →
      PlainStep σ (σ.newFunction fn).2
  | newApplied (target : FunctionId) (bound : Value) : PlainStep σ (σ.newApplied target bound).2
  | newComposite (outer inner : FunctionId) : PlainStep σ (σ.newComposite outer inner).2
  | install (registry : Registry) (env : Env) : PlainStep σ (registry.install env σ)
  | write {fuel : Nat} {r : Reference} {v : Value} {τ : Store} :
      (Eval.write fuel r v σ).store? = some τ → PlainStep σ τ
  | call {fuel : Nat} {f : FunctionId} {args : List Argument} {τ : Store} :
      (Eval.invoke fuel f args σ).store? = some τ → PlainStep σ τ

inductive Interpreter.Ran (i : Interpreter) (source : String) (σ : Store) : RunReport → Prop
  | run {fuel : Nat} {report : RunReport} :
      i.run fuel source σ = some report → Ran i source σ report
  | runIn {fuel : Nat} {env : Env} {report : RunReport} :
      i.runIn fuel env source σ = some report → Ran i source σ report
  | runIsolated {fuel : Nat} {report : RunReport} :
      i.runIsolated fuel source σ = some report → Ran i source σ report

/-- The store that a session of a host leads to, with the sources it has run, the last one first. -/
inductive Session : List String → Store → Prop
  | empty : Session [] .empty
  | step {sources : List String} {σ τ : Store} :
      Session sources σ → PlainStep C σ τ → Session sources τ
  | run {sources : List String} {σ : Store} {i : Interpreter} {source : String}
      {report : Interpreter.RunReport} :
      Session sources σ → i.InUse → i.Ran source σ report → Session (source :: sources) report.store

end Sessions

/-- The line of a call, an assignment or a step in the tree of one of the sources. -/
def ErrorLine (sources : List String) (line : Nat) : Prop :=
  ∃ source ∈ sources, ∃ tokens program d,
    Token.scan source = .ok tokens ∧ Program.parse tokens = .ok program d ∧
    ∃ node ∈ Stmt.nodesMany program, node.raises = true ∧ node.pos.line = line

/-- Running another source adds lines and takes none away. -/
theorem ErrorLine.cons {sources : List String} {line : Nat} (source : String)
    (h : ErrorLine sources line) :
    ErrorLine (source :: sources) line := by
  obtain ⟨source', hmem, h⟩ := h
  exact ⟨source', List.mem_cons_of_mem source hmem, h⟩

/-- Lines are counted from one, so zero can stand for a line that is not known. -/
theorem ErrorLine.one_le {sources : List String} {line : Nat} (h : ErrorLine sources line) :
    1 ≤ line := by
  obtain ⟨source, -, tokens, program, d, hscan, hparse, node, hnode, -, rfl⟩ := h
  exact one_le_line_of_parse hscan hparse node hnode

/-! ## 2. Steps of a host -/

section Steps

variable {C : HostFunction → Prop} {L A : Nat → Prop} {σ τ : Store}

theorem Outcome.Raises.store {α : Type} {Q : α → Prop} {o : Outcome α} (h : o.Raises C L A Q)
    (hτ : o.store? = some τ) : τ.RaisesOn C L := by
  cases o with
  | done a υ =>
    cases hτ
    exact h.1
  | failed e υ =>
    cases hτ
    exact h.1
  | exhausted => cases hτ

/-- Whether an export is a constant, or native code that is no host's. -/
def Export.placesNothing : Export → Bool
  | .constant _ => true
  | .function fn => fn.isPlainNative && fn.hostCode?.isNone

theorem Namespace.exports_placeNothing (ns : Namespace) :
    ns.exports.all (·.2.placesNothing) = true := by
  cases ns <;> rfl

/-- Installing an export adds code that raises errors without a line. -/
theorem Export.realize_raisesOn {e : Export} (he : e.placesNothing = true) (hσ : σ.RaisesOn C L) :
    (e.realize σ).2.RaisesOn C L := by
  cases e with
  | constant v => exact hσ
  | function fn =>
    simp only [placesNothing, Bool.and_eq_true, Option.isNone_iff_eq_none] at he
    refine hσ.newFunction (Function.raisesOn_of_isPlainNative he.1 fun f hf => ?_)
    rw [he.2] at hf
    cases hf

theorem Registry.define_raisesOn {env : Env} :
    ∀ (exports : List (String × Export)) {σ : Store}, σ.RaisesOn C L →
      exports.all (·.2.placesNothing) = true → (define env exports σ).RaisesOn C L
  | [], _, hσ, _ => hσ
  | (x, e) :: exports, σ, hσ, h => by
    rw [List.all_cons, Bool.and_eq_true] at h
    have hdefined : ((e.realize σ).2.define env x (e.realize σ).1).RaisesOn C L :=
      (Export.realize_raisesOn h.1 hσ).of_functions_eq rfl
    exact Registry.define_raisesOn exports hdefined h.2

/-- A step of a host keeps the code on its lines. -/
theorem PlainStep.raisesOn [Host] (hC : Host.LeavesLines C) (h : PlainStep C σ τ)
    (hσ : σ.RaisesOn C L) : τ.RaisesOn C L := by
  cases h with
  | newScope _ | define _ _ _ | remove _ _ | newArray _ | replaceItems _ _ =>
    exact hσ.of_functions_eq rfl
  | set env x v => exact hσ.of_functions_eq (σ.set_functions env x v)
  | newNative hfn hhost => exact hσ.newFunction (Function.raisesOn_of_isPlainNative hfn hhost)
  | newApplied target bound => exact hσ.newApplied target bound
  | newComposite outer inner => exact hσ.newComposite outer inner
  | install registry env =>
    refine Registry.define_raisesOn _ hσ (List.all_eq_true.2 fun e he => ?_)
    obtain ⟨ns, -, hns⟩ := List.mem_flatMap.1 he
    exact List.all_eq_true.1 ns.exports_placeNothing e hns
  | write hwrite => exact (Eval.raises_write (A := fun _ => True) trivial _ _ σ hσ).store hwrite
  | call hcall => exact ((Eval.evaluatorRaises hC L _).invoke _ _ σ hσ).store hcall

end Steps

/-! ## 3. Reports

A hook that is told of an error is told of the one that the run fails with. -/

def Notice.runtimeError? : Notice → Option RuntimeError
  | .runtimeError e => some e
  | .anyError (.ofRuntime e) => some e
  | _ => none

namespace Hook

variable {hooks : List Hook} {e : RuntimeError}

/-- Hooks are told about the error that was raised, and about no other one. -/
theorem eq_of_mem_onError {err : RunError} {notice : Notice} (h : notice ∈ onError hooks err)
    (he : notice.runtimeError? = some e) : err = .ofRuntime e := by
  unfold onError at h
  split at h
  · obtain ⟨hook, -, hmem⟩ := List.mem_flatMap.1 h
    cases hook with
    | anyError =>
      obtain rfl := List.mem_singleton.1 hmem
      cases err with
      | ofSyntax _ => cases he
      | ofRuntime _ => rw [Option.some.inj he]
    | _ => cases hmem
  · obtain ⟨hook, -, hmem⟩ := List.mem_flatMap.1 h
    cases hook with
    | runtimeError =>
      cases err with
      | ofSyntax _ => cases hmem
      | ofRuntime _ =>
        obtain rfl := List.mem_singleton.1 hmem
        rw [Option.some.inj he]
    | syntaxError =>
      cases err with
      | ofSyntax _ =>
        obtain rfl := List.mem_singleton.1 hmem
        cases he
      | ofRuntime _ => cases hmem
    | _ => cases hmem

theorem runtimeError?_of_mem_onResult {fuel : Nat} {σ : Store} {v : Value} {hook : Hook}
    {notices : List Notice} (h : onResult fuel σ v hook = some notices) :
    ∀ notice ∈ notices, notice.runtimeError? = none := by
  intro notice hnotice
  cases hook with
  | result =>
    cases h
    obtain rfl := List.mem_singleton.1 hnotice
    rfl
  | int | float | bool | string =>
    obtain ⟨x, -, rfl⟩ := Option.map_eq_some_iff.1 h
    obtain rfl := List.mem_singleton.1 hnotice
    rfl
  | syntaxError | runtimeError | anyError =>
    cases h
    cases hnotice

/-- No hook is told about an error when the run has a result. -/
theorem runtimeError?_of_mapM_onResult {fuel : Nat} {σ : Store} {v : Value} : ∀ {hooks : List Hook}
    {told : List (List Notice)}, hooks.mapM (onResult fuel σ v) = some told →
    ∀ notice ∈ told.flatten, notice.runtimeError? = none
  | [], _, h, notice, hnotice => by
    cases h
    cases hnotice
  | hook :: hooks, told, h, notice, hnotice => by
    simp only [List.mapM_cons, Option.bind_eq_bind, Option.bind_eq_some_iff] at h
    obtain ⟨first, hfirst, rest, hrest, h⟩ := h
    cases h
    rcases List.mem_append.1 hnotice with hmem | hmem
    · exact runtimeError?_of_mem_onResult hfirst notice hmem
    · exact runtimeError?_of_mapM_onResult hrest notice hmem

end Hook

namespace Interpreter

/-- The run failed with the error: it returned the error, or told a hook about it. -/
def RunReport.FailedWith (report : RunReport) (e : RuntimeError) : Prop :=
  report.outcome = .error (.ofRuntime e) ∨ ∃ notice ∈ report.notices, notice.runtimeError? = some e

/-- A report on an error fails with that error. -/
theorem eq_of_reportError_failedWith {i : Interpreter} {err : RunError} {σ : Store}
    {e : RuntimeError} (h : (i.reportError err σ).FailedWith e) : err = .ofRuntime e := by
  unfold reportError at h
  split at h
  · rcases h with h | ⟨notice, hnotice, -⟩
    · exact Except.error.inj h
    · cases hnotice
  · rcases h with h | ⟨notice, hnotice, he⟩
    · cases h
    · exact Hook.eq_of_mem_onError hnotice he

theorem not_failedWith_of_reportResult {fuel : Nat} {i : Interpreter} {v : Value} {σ : Store}
    {report : RunReport} (h : i.reportResult fuel v σ = some report) (e : RuntimeError) :
    ¬ report.FailedWith e := by
  obtain ⟨w, told, -, htold, hreport⟩ := exists_copy_of_reportResult h
  rw [hreport]
  rintro (houtcome | ⟨notice, hnotice, he⟩)
  · cases houtcome
  · rw [Hook.runtimeError?_of_mapM_onResult htold notice hnotice] at he
    cases he

end Interpreter

/-! ## 4. Runs

Functions that were declared by an earlier source still raise errors on the lines of that source. -/

section Runs

variable {C : HostFunction → Prop} {sources : List String} {σ : Store} {i : Interpreter}
  {source : String} {report : Interpreter.RunReport}

/-- The code of a source stands on its lines. -/
theorem all_raisesOn_of_parse {tokens : List Token} {program : Program} {d : Cursor}
    (hscan : Token.scan source = .ok tokens) (hparse : Program.parse tokens = .ok program d) :
    ∀ s ∈ program, s.All (·.RaisesOn (ErrorLine (source :: sources))) :=
  Stmt.all_many.1 fun x hx hraises =>
    ⟨source, by simp, tokens, program, d, hscan, hparse, x, hx, hraises, rfl⟩

variable [Host]

/-- A run leaves code of its source and of the earlier ones, and fails on their lines. -/
theorem runIn_raises (hC : Host.LeavesLines C) {fuel : Nat} {env : Env}
    (hσ : σ.RaisesOn C (ErrorLine sources)) (hi : i.InUse)
    (hrun : i.runIn fuel env source σ = some report) :
    report.store.RaisesOn C (ErrorLine (source :: sources)) ∧
      ∀ e, report.FailedWith e → ErrorLine (source :: sources) e.line := by
  have hσ' : σ.RaisesOn C (ErrorLine (source :: sources)) :=
    hσ.mono fun _ hline => hline.cons source
  obtain ⟨result, hparse, hreport⟩ := Interpreter.exists_parse_of_runIn hrun
  -- The source is refused, or it has a tree; then its execution fails, or its value is reported.
  rcases hreport with ⟨err, hreport⟩ | ⟨tree, rfl, hexec⟩
  · rw [hreport]
    refine ⟨?_, fun e he => ?_⟩
    · rw [(Interpreter.reportError_faulty _ _ σ).2]
      exact hσ'
    · cases Interpreter.eq_of_reportError_failedWith he
  · obtain ⟨tokens, d, hscan, htree⟩ := (hi.coherent.parse hparse).2 tree rfl
    have hraises := Eval.raises_execProgram hC fuel env (all_raisesOn_of_parse hscan htree) σ hσ'
    rcases hexec with ⟨err, τ, hfailed, hreport⟩ | ⟨v, τ, hdone, hreport⟩
    · rw [hfailed] at hraises
      rw [hreport]
      refine ⟨?_, fun e he => ?_⟩
      · rw [(Interpreter.reportError_faulty _ _ τ).2]
        exact hraises.1
      · cases Interpreter.eq_of_reportError_failedWith he
        exact hraises.2
    · rw [hdone] at hraises
      refine ⟨?_, fun e he => absurd he (Interpreter.not_failedWith_of_reportResult hreport e)⟩
      obtain ⟨w, told, hcopy, -⟩ := Interpreter.exists_copy_of_reportResult hreport
      exact hraises.1.of_functions_eq (Store.copiedTo_of_copy hcopy).functions

theorem Interpreter.Ran.raises (hC : Host.LeavesLines C) (hrun : i.Ran source σ report)
    (hσ : σ.RaisesOn C (ErrorLine sources)) (hi : i.InUse) :
    report.store.RaisesOn C (ErrorLine (source :: sources)) ∧
      ∀ e, report.FailedWith e → ErrorLine (source :: sources) e.line := by
  cases hrun with
  | run hrun => exact runIn_raises hC hσ hi hrun
  | runIn hrun => exact runIn_raises hC hσ hi hrun
  | runIsolated hrun =>
    have hentered : (σ.enter i.env.root).2.RaisesOn C (ErrorLine sources) := hσ.of_functions_eq rfl
    exact runIn_raises hC hentered hi hrun

/-- By induction on the session: all code in its store stands on lines of the sources that were
run. -/
theorem Session.raisesOn (hC : Host.LeavesLines C) (h : Session C sources σ) :
    σ.RaisesOn C (ErrorLine sources) := by
  induction h with
  | empty => exact Store.empty_raisesOn
  | step _ hstep ih => exact hstep.raisesOn hC ih
  | run _ hi hrun ih => exact (hrun.raises hC ih hi).1

/-- Whatever a host has done before, a runtime error of a run is placed on a line, counted from one,
of a call, an assignment or a step in the tree of that source or of a source that was run before. -/
theorem runtime_error_on_source_line (hC : Host.LeavesLines C) (hσ : Session C sources σ)
    (hi : i.InUse) (hrun : i.Ran source σ report) {e : RuntimeError} (he : report.FailedWith e) :
    1 ≤ e.line ∧ ErrorLine (source :: sources) e.line := by
  have hline := (hrun.raises hC (hσ.raisesOn hC) hi).2 e he
  exact ⟨hline.one_le, hline⟩

end Runs

def declaringSource : String := "\nfn spoil() \x7b 1 = 2; \x7d"

def callingSource : String := "spoil()"

/-- The function fails where the first source declares it, when the second source calls it. -/
theorem error_of_earlier_source :
    ∃ declared failed : Interpreter.RunReport,
      (Interpreter.ofEnv ⟨⟨0⟩, []⟩).run 60 declaringSource (Store.empty.newScope []).2 =
        some declared ∧
      Session SampleHost.LineFree [declaringSource] declared.store ∧ declared.interpreter.InUse ∧
      declared.interpreter.run 60 callingSource declared.store = some failed ∧
      failed.outcome = .error (.ofRuntime ⟨.notAssignable "int", 2⟩) ∧
      1 ≤ 2 ∧ ErrorLine [callingSource, declaringSource] 2 := by
  have heval : ((Interpreter.ofEnv ⟨⟨0⟩, []⟩).run 60 declaringSource
      (Store.empty.newScope []).2).bind (fun declared =>
        (declared.interpreter.run 60 callingSource declared.store).map fun failed =>
          match failed.outcome with
          | .ok _ => none
          | .error e => some e) = some (some (.ofRuntime ⟨.notAssignable "int", 2⟩)) := by
    decide +kernel
  obtain ⟨declared, hdeclared, hrest⟩ := Option.bind_eq_some_iff.1 heval
  obtain ⟨failed, hfailed, herror⟩ := Option.map_eq_some_iff.1 hrest
  have houtcome : failed.outcome = .error (.ofRuntime ⟨.notAssignable "int", 2⟩) := by
    cases hfail : failed.outcome with
    | ok v =>
      rw [hfail] at herror
      cases herror
    | error e =>
      rw [hfail] at herror
      rw [Option.some.inj herror]
  have hsession : Session SampleHost.LineFree [declaringSource] declared.store :=
    .run (.step .empty (.newScope [])) (.ofEnv _) (.run hdeclared)
  have hinUse : declared.interpreter.InUse := .runIn (.ofEnv _) hdeclared
  have hline := runtime_error_on_source_line SampleHost.leavesLines hsession hinUse (.run hfailed)
    (.inl houtcome)
  exact ⟨declared, failed, hdeclared, hsession, hinUse, hfailed, houtcome, hline⟩

end Scriptlet
