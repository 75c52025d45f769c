import Scriptlet.Proofs.ParseCache
import Scriptlet.Proofs.ParserProgress

/-!
# Calls are answered as if nothing were kept

A host makes calls one after the other on one interpreter, and sources may be refused or fail in
between.  The answers are compared with those of the scanner, of the parser and of interpreters that
are made anew for each run.

The caches are those of §4.2 and §10.6 of the specification.  What is kept never shows, because it
is what the scanner and the parser would return again (`Coherent`).
-/

namespace Scriptlet

def Program.read? (source : String) : Option (Except SyntaxError Program) :=
  match Token.scan source with
  | .error e => some (.error e)
  | .ok tokens =>
    match Program.parse tokens with
    | .ok program _ => some (.ok program)
    | .error e => some (.error e)
    | .exhausted => none

/-- The parser never runs out of its fuel, so every source is read to a program or refused. -/
theorem exists_eq_read? (source : String) : ∃ result, Program.read? source = some result := by
  unfold Program.read?
  cases Token.scan source with
  | error e => exact ⟨_, rfl⟩
  | ok tokens =>
    rcases result_of_parse tokens with ⟨program, d, hparse, -⟩ | ⟨e, hparse⟩
    · exact ⟨.ok program, by simp only [hparse]⟩
    · exact ⟨.error e, by simp only [hparse]⟩

namespace Interpreter

/-! ## 1. Calls -/

/-- A call that a host makes.  A run is given the fuel that it may use. -/
inductive Call where
  | register (hook : Hook)
  | tokenize (source : String)
  | parse (source : String)
  | run (fuel : Nat) (source : String)
  | runIn (fuel : Nat) (env : Env) (source : String)
  | runIsolated (fuel : Nat) (source : String)

/-- What a host gets back: the stamps are left out, and the notices of a run are part of its
answer. -/
inductive Answer where
  | registered
  | tokens (result : Except SyntaxError (List Token))
  | program (result : Except SyntaxError Program)
  | ran (outcome : Except RunError Value) (notices : List Notice)

def RunReport.seen (report : RunReport) : Answer × Store :=
  (.ran report.outcome report.notices, report.store)

namespace Call

/-- Makes a call: the answer and the store after it, and the interpreter after it. -/
def make [Host] (i : Interpreter) (σ : Store) : Call → Option ((Answer × Store) × Interpreter)
  | register hook => some ((.registered, σ), i.register hook)
  | tokenize source =>
    some ((.tokens ((i.tokenize source).1.map Stamped.content), σ), (i.tokenize source).2)
  | parse source => (i.parse source).map fun r => ((.program (r.1.map Stamped.content), σ), r.2)
  | run fuel source => (i.run fuel source σ).map fun r => (r.seen, r.interpreter)
  | runIn fuel env source => (i.runIn fuel env source σ).map fun r => (r.seen, r.interpreter)
  | runIsolated fuel source => (i.runIsolated fuel source σ).map fun r => (r.seen, r.interpreter)

end Call

def answers [Host] (i : Interpreter) (σ : Store) : List Call → List (Answer × Store)
  | [] => []
  | call :: calls =>
    match call.make i σ with
    | some (seen, j) => seen :: j.answers seen.2 calls
    | none => []

def withHooks (env : Env) (hooks : List Hook) : Interpreter := { ofEnv env with hooks := hooks }

namespace Call

/-- The answer that a call should have: the tokens of the scanner, the program of the parser, or
what a new interpreter with the same environment and hooks reports. -/
def expected [Host] (env : Env) (hooks : List Hook) (σ : Store) : Call → Option (Answer × Store)
  | register _ => some (.registered, σ)
  | tokenize source => some (.tokens (Token.scan source), σ)
  | parse source => (Program.read? source).map fun result => (.program result, σ)
  | run fuel source => ((withHooks env hooks).run fuel source σ).map RunReport.seen
  | runIn fuel env' source => ((withHooks env hooks).runIn fuel env' source σ).map RunReport.seen
  | runIsolated fuel source => ((withHooks env hooks).runIsolated fuel source σ).map RunReport.seen

def hooksAfter (hooks : List Hook) : Call → List Hook
  | register hook => hooks ++ [hook]
  | _ => hooks

end Call

def expectedAnswers [Host] (env : Env) (hooks : List Hook) (σ : Store) :
    List Call → List (Answer × Store)
  | [] => []
  | call :: calls =>
    match call.expected env hooks σ with
    | some seen => seen :: expectedAnswers env (call.hooksAfter hooks) seen.2 calls
    | none => []

/-! ## 2. What stays

A call may change the caches and the next stamp.  It keeps the environment, and the hooks unless it
registers one. -/

/-- Only the caches and the next stamp may differ. -/
structure SameSetup (i j : Interpreter) : Prop where
  env : j.env = i.env
  hooks : j.hooks = i.hooks

section SameSetup

variable {i j : Interpreter} {source : String}

theorem sameSetup_tokenize (i : Interpreter) (source : String) :
    i.SameSetup (i.tokenize source).2 := by
  rcases i.tokenize_cases source with ⟨ts, -, heq⟩ | ⟨e, -, heq⟩ | ⟨tokens, -, heq⟩ <;>
  · rw [heq]
    exact ⟨rfl, rfl⟩

theorem sameSetup_of_parseTokens {ts : Stamped (List Token)}
    {result : Except SyntaxError (Stamped Program)} (h : i.parseTokens ts = some (result, j)) :
    i.SameSetup j := by
  rcases i.parseTokens_cases ts with ⟨tree, -, heq⟩ | ⟨e, -, heq⟩ | ⟨-, heq⟩ | ⟨program, d, -, heq⟩
  · cases heq.symm.trans h
    exact ⟨rfl, rfl⟩
  · cases heq.symm.trans h
    exact ⟨rfl, rfl⟩
  · cases heq.symm.trans h
  · cases heq.symm.trans h
    exact ⟨rfl, rfl⟩

theorem sameSetup_of_parse {result : Except SyntaxError (Stamped Program)}
    (h : i.parse source = some (result, j)) :
    i.SameSetup j := by
  have hfirst := i.sameSetup_tokenize source
  unfold parse at h
  split at h
  · next e k heq =>
    cases h
    rw [heq] at hfirst
    exact hfirst
  · next ts k heq =>
    rw [heq] at hfirst
    have hsecond := sameSetup_of_parseTokens h
    exact ⟨hsecond.env.trans hfirst.env, hsecond.hooks.trans hfirst.hooks⟩

theorem sameSetup_of_runIn [Host] {fuel : Nat} {env : Env} {σ : Store} {report : RunReport}
    (h : i.runIn fuel env source σ = some report) : i.SameSetup report.interpreter := by
  obtain ⟨result, hparse, -⟩ := exists_parse_of_runIn h
  exact sameSetup_of_parse hparse

end SameSetup

/-! ## 3. What is answered

Answers of an interpreter whose caches are coherent, against those of one that starts afresh for
each call. -/

section Coherent

variable {i j : Interpreter}

/-- Kept tokens are those that the scanner returns. -/
theorem Coherent.tokenize_content (h : i.Coherent) (source : String) :
    (i.tokenize source).1.map Stamped.content = Token.scan source := by
  rcases i.tokenize_cases source with ⟨ts, hts, heq⟩ | ⟨e, hscan, heq⟩ | ⟨tokens, hscan, heq⟩
  · rw [heq, (h.tokens source ts hts).1]
    rfl
  · rw [heq, hscan]
    rfl
  · rw [heq, hscan]
    rfl

/-- A kept tree is the one that the parser returns. -/
theorem Coherent.parse_content (h : i.Coherent) (source : String) :
    (i.parse source).map (fun r => r.1.map Stamped.content) = Program.read? source := by
  obtain ⟨hcoherent, htokens⟩ := h.tokenize source
  have hscan := h.tokenize_content source
  unfold Interpreter.parse Program.read?
  rw [← hscan]
  rcases htokenize : i.tokenize source with ⟨result, j⟩
  rw [htokenize] at hcoherent htokens
  cases result with
  | error e => rfl
  | ok ts =>
    have hts := htokens ts rfl
    simp only [Except.map]
    -- a tree that is kept with this stamp was parsed from these tokens
    rcases j.parseTokens_cases ts with
      ⟨tree, htree, heq⟩ | ⟨e, hparse, heq⟩ | ⟨hparse, heq⟩ | ⟨program, d, hparse, heq⟩
    · obtain ⟨d, hparse⟩ := (hcoherent.tree _ tree htree).2 source ts hts rfl
      rw [heq, hparse]
      rfl
    · rw [heq, hparse]
      rfl
    · rw [heq, hparse]
      rfl
    · rw [heq, hparse]
      rfl

theorem seen_reportError (hhooks : i.hooks = j.hooks) (e : RunError) (σ : Store) :
    (i.reportError e σ).seen = (j.reportError e σ).seen := by
  unfold reportError
  rw [hhooks]
  cases Hook.onError j.hooks e <;> rfl

theorem seen_reportResult (hhooks : i.hooks = j.hooks) (fuel : Nat) (v : Value) (σ : Store) :
    (i.reportResult fuel v σ).map RunReport.seen =
      (j.reportResult fuel v σ).map RunReport.seen := by
  unfold reportResult
  rw [hhooks]
  cases σ.copy fuel v with
  | none => rfl
  | some copied =>
    cases hnotices : j.hooks.mapM (Hook.onResult fuel copied.2 copied.1) with
    | none => simp [hnotices]
    | some notices => simp [hnotices, RunReport.seen]

/-- The reports of a run differ only in the interpreter after it. -/
theorem Coherent.seen_runIn [Host] (hi : i.Coherent) (hj : j.Coherent) (hhooks : i.hooks = j.hooks)
    (fuel : Nat) (env : Env) (source : String) (σ : Store) :
    (i.runIn fuel env source σ).map RunReport.seen =
      (j.runIn fuel env source σ).map RunReport.seen := by
  -- Both interpreters read the source to the same result, so only the stamps of their trees differ.
  have hcontent := (hi.parse_content source).trans (hj.parse_content source).symm
  unfold runIn
  cases hparse : i.parse source with
  | none =>
    cases hparse' : j.parse source with
    | none => rfl
    | some _ => simp [hparse, hparse'] at hcontent
  | some first =>
    cases hparse' : j.parse source with
    | none => simp [hparse, hparse'] at hcontent
    | some second =>
      obtain ⟨result, i'⟩ := first
      obtain ⟨result', j'⟩ := second
      have hafter : i'.hooks = j'.hooks := by
        rw [(sameSetup_of_parse hparse).hooks, (sameSetup_of_parse hparse').hooks, hhooks]
      rw [hparse, hparse'] at hcontent
      have hsame : result.map Stamped.content = result'.map Stamped.content :=
        Option.some.inj hcontent
      cases result with
      | error e =>
        cases result' with
        | error e' =>
          cases hsame
          exact congrArg some (seen_reportError hafter _ σ)
        | ok tree' => cases hsame
      | ok tree =>
        cases result' with
        | error e' => cases hsame
        | ok tree' =>
          have htree : tree.content = tree'.content := Except.ok.inj hsame
          simp only [Option.bind_eq_bind, Option.bind_some, htree]
          cases Eval.execProgram fuel env tree'.content σ with
          | exhausted => rfl
          | failed e τ => exact congrArg some (seen_reportError hafter _ τ)
          | done v τ => exact seen_reportResult hafter fuel v τ

end Coherent

/-! ## 4. Sequences of calls

Hooks are kept from call to call, and caches are coherent after each. -/

theorem coherent_withHooks (env : Env) (hooks : List Hook) : (withHooks env hooks).Coherent :=
  ⟨nofun, nofun⟩

section InUse

variable [Host] {i j : Interpreter}

/-- After a call the interpreter is still in use, with its environment and the hooks that it should
have. -/
theorem InUse.of_make (h : i.InUse) {σ : Store} {call : Call} {seen : Answer × Store}
    (hmake : call.make i σ = some (seen, j)) :
    j.InUse ∧ j.env = i.env ∧ j.hooks = call.hooksAfter i.hooks := by
  cases call with
  | register hook =>
    cases hmake
    exact ⟨.register hook h, rfl, rfl⟩
  | tokenize source =>
    cases hmake
    have hsame := i.sameSetup_tokenize source
    exact ⟨.tokenize source h, hsame.env, hsame.hooks⟩
  | parse source =>
    obtain ⟨⟨result, k⟩, hparse, heq⟩ := Option.map_eq_some_iff.1 hmake
    cases heq
    have hsame := sameSetup_of_parse hparse
    exact ⟨.parse h hparse, hsame.env, hsame.hooks⟩
  | run fuel source | runIn fuel env source | runIsolated fuel source =>
    obtain ⟨report, hrun, heq⟩ := Option.map_eq_some_iff.1 hmake
    cases heq
    have hsame := sameSetup_of_runIn hrun
    exact ⟨.runIn h hrun, hsame.env, hsame.hooks⟩

/-- A call on an interpreter in use is answered as it should be. -/
theorem InUse.seen_make (h : i.InUse) (σ : Store) (call : Call) :
    (call.make i σ).map Prod.fst = call.expected i.env i.hooks σ := by
  have hcoherent := h.coherent
  have hrun : ∀ fuel env source τ, (i.runIn fuel env source τ).map RunReport.seen =
      ((withHooks i.env i.hooks).runIn fuel env source τ).map RunReport.seen :=
    hcoherent.seen_runIn (coherent_withHooks i.env i.hooks) rfl
  cases call with
  | register hook => rfl
  | tokenize source =>
    rw [Call.make, Call.expected, hcoherent.tokenize_content source]
    rfl
  | parse source =>
    rw [Call.make, Call.expected, ← hcoherent.parse_content source, Option.map_map, Option.map_map]
    rfl
  | run fuel source =>
    rw [Call.make, Call.expected, Option.map_map]
    exact hrun fuel i.env source σ
  | runIn fuel env source =>
    rw [Call.make, Call.expected, Option.map_map]
    exact hrun fuel env source σ
  | runIsolated fuel source =>
    rw [Call.make, Call.expected, Option.map_map]
    exact hrun fuel _ source _

/-- So are all calls of a list, of which each one leaves an interpreter in use. -/
theorem InUse.answers_eq (h : i.InUse) (σ : Store) (calls : List Call) :
    i.answers σ calls = expectedAnswers i.env i.hooks σ calls := by
  -- The hooks grow along the calls, so the induction is over all interpreters in use.
  induction calls generalizing i σ with
  | nil => rfl
  | cons call calls ih =>
    have hseen := h.seen_make σ call
    unfold answers expectedAnswers
    rw [← hseen]
    cases hmake : call.make i σ with
    | none => rfl
    | some result =>
      obtain ⟨seen, j⟩ := result
      obtain ⟨hj, henv, hhooks⟩ := h.of_make hmake
      have hrest := ih hj seen.2
      rw [henv, hhooks] at hrest
      exact congrArg (seen :: ·) hrest

end InUse

/-- Whatever calls are made on an interpreter, and whether they succeed or fail, each one is
answered as if nothing were kept from the ones before it: with the tokens of the scanner, with the
program of the parser (there always is an answer), or with the outcome, the notices and the store of
a run on a new interpreter with the same hooks. -/
theorem caching_is_transparent [Host] (env : Env) (σ : Store) (calls : List Call) :
    (ofEnv env).answers σ calls = expectedAnswers env [] σ calls ∧
      ∀ source, ∃ result, Program.read? source = some result :=
  ⟨(InUse.ofEnv env).answers_eq σ calls, exists_eq_read?⟩

end Interpreter
end Scriptlet
