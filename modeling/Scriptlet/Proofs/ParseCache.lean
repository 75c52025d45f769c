import Scriptlet.Interpreter

/-!
# What the caches of an interpreter stand for

An interpreter keeps the last source with its tokens, and the last tree with the stamp of the tokens
that it was parsed from.  The two may belong to different sources: a source that scans replaces the
tokens, and its tree comes later, or not at all if it is refused.  A stamp is given out once, so the
tree belongs to the tokens that are kept if and only if it has their stamp.

The cache of trees is that of §4.2 of the specification, the cache of tokens that of its §10.6.
-/

namespace Scriptlet
namespace Interpreter

/-! ## 1. Scanning and parsing -/

def keepTokens (i : Interpreter) (source : String) (tokens : List Token) : Interpreter :=
  { i with tokenCache := some (source, ⟨i.nextStamp, tokens⟩), nextStamp := i.nextStamp + 1 }

def keepTree (i : Interpreter) (stamp : Nat) (program : Program) : Interpreter :=
  { i with treeCache := some (stamp, ⟨i.nextStamp, program⟩), nextStamp := i.nextStamp + 1 }

/-- The three ways to get tokens: they are kept, the scanner refuses the source, or the scanner
makes them. -/
theorem tokenize_cases (i : Interpreter) (source : String) :
    (∃ ts, i.tokenCache = some (source, ts) ∧ i.tokenize source = (.ok ts, i)) ∨
    (∃ e, Token.scan source = .error e ∧ i.tokenize source = (.error e, i)) ∨
    ∃ tokens, Token.scan source = .ok tokens ∧
      i.tokenize source = (.ok ⟨i.nextStamp, tokens⟩, i.keepTokens source tokens) := by
  by_cases hkept : ∃ ts, i.tokenCache = some (source, ts)
  · obtain ⟨ts, hts⟩ := hkept
    exact .inl ⟨ts, hts, by simp [tokenize, hts]⟩
  · right
    have hother : ∀ cached ts, i.tokenCache = some (cached, ts) → cached ≠ source := by
      rintro cached ts hcached rfl
      exact hkept ⟨ts, hcached⟩
    unfold tokenize
    cases hscan : Token.scan source with
    | error e =>
      refine .inl ⟨e, rfl, ?_⟩
      cases hcache : i.tokenCache with
      | none => rfl
      | some entry => simp [hother _ _ hcache]
    | ok tokens =>
      refine .inr ⟨tokens, rfl, ?_⟩
      cases hcache : i.tokenCache with
      | none => rfl
      | some entry => simp [hother _ _ hcache, keepTokens]

/-- The ways to get a tree: it is kept, the parser refuses the tokens or runs out of fuel, or the
parser makes it. -/
theorem parseTokens_cases (i : Interpreter) (ts : Stamped (List Token)) :
    (∃ tree, i.treeCache = some (ts.stamp, tree) ∧ i.parseTokens ts = some (.ok tree, i)) ∨
    (∃ e, Program.parse ts.content = .error e ∧ i.parseTokens ts = some (.error e, i)) ∨
    (Program.parse ts.content = .exhausted ∧ i.parseTokens ts = none) ∨
    ∃ program d, Program.parse ts.content = .ok program d ∧
      i.parseTokens ts = some (.ok ⟨i.nextStamp, program⟩, i.keepTree ts.stamp program) := by
  by_cases hkept : ∃ tree, i.treeCache = some (ts.stamp, tree)
  · obtain ⟨tree, htree⟩ := hkept
    exact .inl ⟨tree, htree, by simp [parseTokens, htree]⟩
  · right
    have hother : ∀ stamp tree, i.treeCache = some (stamp, tree) → stamp ≠ ts.stamp := by
      rintro stamp tree hcached rfl
      exact hkept ⟨tree, hcached⟩
    unfold parseTokens
    cases hparse : Program.parse ts.content with
    | error e =>
      refine .inl ⟨e, rfl, ?_⟩
      cases hcache : i.treeCache with
      | none => rfl
      | some entry => simp [hother _ _ hcache]
    | exhausted =>
      refine .inr (.inl ⟨rfl, ?_⟩)
      cases hcache : i.treeCache with
      | none => rfl
      | some entry => simp [hother _ _ hcache]
    | ok program d =>
      refine .inr (.inr ⟨program, d, rfl, ?_⟩)
      cases hcache : i.treeCache with
      | none => rfl
      | some entry => simp [hother _ _ hcache, keepTree]

/-! ## 2. Coherence

A tree may belong to tokens that are not kept any more.  Nothing is said about it then, and nothing
is needed, since no new tokens get its stamp. -/

/-- What is kept is what the scanner and the parser return. -/
structure Coherent (i : Interpreter) : Prop where
  tokens : ∀ source ts, i.tokenCache = some (source, ts) → Token.scan source = .ok ts.content ∧
    ts.stamp < i.nextStamp
  tree : ∀ stamp tree, i.treeCache = some (stamp, tree) → stamp < i.nextStamp ∧
    ∀ source ts, i.tokenCache = some (source, ts) → ts.stamp = stamp →
      ∃ d, Program.parse ts.content = .ok tree.content d

section Coherent

variable {i j : Interpreter} {source : String}

/-- New tokens get a stamp that no tree has. -/
theorem Coherent.keepTokens (h : i.Coherent) {tokens : List Token}
    (hscan : Token.scan source = .ok tokens) :
    (i.keepTokens source tokens).Coherent where
  tokens := by
    rintro _ _ ⟨⟩
    exact ⟨hscan, Nat.lt_succ_self _⟩
  tree stamp tree htree := by
    have hstamp := (h.tree stamp tree htree).1
    refine ⟨Nat.lt_succ_of_lt hstamp, ?_⟩
    rintro _ _ ⟨⟩ rfl
    exact absurd hstamp (Nat.lt_irrefl _)

/-- A new tree belongs to the tokens that are kept. -/
theorem Coherent.keepTree (h : i.Coherent) {ts : Stamped (List Token)}
    (hts : i.tokenCache = some (source, ts)) {program : Program} {d : Cursor}
    (hparse : Program.parse ts.content = .ok program d) :
    (i.keepTree ts.stamp program).Coherent where
  tokens source' ts' hts' := by
    obtain ⟨hscan, hstamp⟩ := h.tokens source' ts' hts'
    exact ⟨hscan, Nat.lt_succ_of_lt hstamp⟩
  tree := by
    rintro _ _ ⟨⟩
    refine ⟨Nat.lt_succ_of_lt (h.tokens source ts hts).2, fun source' ts' hts' _ => ?_⟩
    obtain ⟨rfl, rfl⟩ := Prod.mk.inj (Option.some.inj (hts.symm.trans hts'))
    exact ⟨d, hparse⟩

/-- The tokens of a source are kept, whether they were there or are new. -/
theorem Coherent.tokenize (h : i.Coherent) (source : String) :
    (i.tokenize source).2.Coherent ∧
      ∀ ts, (i.tokenize source).1 = .ok ts →
        (i.tokenize source).2.tokenCache = some (source, ts) := by
  rcases i.tokenize_cases source with ⟨ts, hts, heq⟩ | ⟨e, -, heq⟩ | ⟨tokens, hscan, heq⟩
  · rw [heq]
    refine ⟨h, ?_⟩
    rintro _ ⟨⟩
    exact hts
  · rw [heq]
    exact ⟨h, nofun⟩
  · rw [heq]
    refine ⟨h.keepTokens hscan, ?_⟩
    rintro _ ⟨⟩
    rfl

/-- A tree that is kept is used only for the tokens with its stamp, and those are the ones it was
made from. -/
theorem Coherent.parseTokens (h : i.Coherent) {ts : Stamped (List Token)}
    (hts : i.tokenCache = some (source, ts)) {result : Except SyntaxError (Stamped Program)}
    (hparse : i.parseTokens ts = some (result, j)) :
    j.Coherent ∧ ∀ tree, result = .ok tree →
      ∃ d, Program.parse ts.content = .ok tree.content d := by
  rcases i.parseTokens_cases ts with
    ⟨tree, htree, heq⟩ | ⟨e, -, heq⟩ | ⟨-, heq⟩ | ⟨program, d, hprogram, heq⟩
  · cases heq.symm.trans hparse
    refine ⟨h, ?_⟩
    rintro _ ⟨⟩
    exact (h.tree _ tree htree).2 source ts hts rfl
  · cases heq.symm.trans hparse
    exact ⟨h, nofun⟩
  · cases heq.symm.trans hparse
  · cases heq.symm.trans hparse
    refine ⟨h.keepTree hts hprogram, ?_⟩
    rintro _ ⟨⟩
    exact ⟨d, hprogram⟩

/-- The tree of a source is that of its tokens. -/
theorem Coherent.parse (h : i.Coherent) {result : Except SyntaxError (Stamped Program)}
    (hparse : i.parse source = some (result, j)) :
    j.Coherent ∧ ∀ tree, result = .ok tree →
      ∃ tokens d, Token.scan source = .ok tokens ∧ Program.parse tokens = .ok tree.content d := by
  obtain ⟨hcoherent, htokens⟩ := h.tokenize source
  unfold Interpreter.parse at hparse
  split at hparse
  · next e k heq =>
    rw [heq] at hcoherent
    cases hparse
    exact ⟨hcoherent, nofun⟩
  · next ts k heq =>
    rw [heq] at hcoherent htokens
    have hts := htokens ts rfl
    obtain ⟨hj, htree⟩ := hcoherent.parseTokens hts hparse
    refine ⟨hj, fun tree hok => ?_⟩
    obtain ⟨d, hd⟩ := htree tree hok
    exact ⟨ts.content, d, (hcoherent.tokens source ts hts).1, hd⟩

end Coherent

/-! ## 3. Runs -/

theorem reportError_interpreter (i : Interpreter) (e : RunError) (σ : Store) :
    (i.reportError e σ).interpreter = i := by
  unfold reportError
  split <;> rfl

/-- A result is reported as a copy, after the hooks were told. -/
theorem exists_copy_of_reportResult {fuel : Nat} {i : Interpreter} {v : Value} {σ : Store}
    {report : RunReport} (h : i.reportResult fuel v σ = some report) :
    ∃ w notices, σ.copy fuel v = some (w, report.store) ∧
      i.hooks.mapM (Hook.onResult fuel report.store w) = some notices ∧
      report = ⟨.ok w, notices.flatten, i, report.store⟩ := by
  simp only [reportResult, Option.bind_eq_bind, Option.bind_eq_some_iff, Prod.exists] at h
  obtain ⟨w, τ, hcopy, notices, hnotices, h⟩ := h
  cases h
  exact ⟨w, notices, hcopy, hnotices, rfl⟩

variable [Host]

/-- A run parses its source first.  Then it reports that the source is refused, or that the
execution of its tree fails, or the value of the execution. -/
theorem exists_parse_of_runIn {fuel : Nat} {i : Interpreter} {env : Env}
    {source : String} {σ : Store} {report : RunReport}
    (h : i.runIn fuel env source σ = some report) :
    ∃ result, i.parse source = some (result, report.interpreter) ∧
      ((∃ e, report = report.interpreter.reportError (.ofSyntax e) σ) ∨
      ∃ tree, result = .ok tree ∧
        ((∃ e τ, Eval.execProgram fuel env tree.content σ = .failed e τ ∧
          report = report.interpreter.reportError (.ofRuntime e) τ) ∨
        ∃ v τ, Eval.execProgram fuel env tree.content σ = .done v τ ∧
          report.interpreter.reportResult fuel v τ = some report)) := by
  simp only [runIn, Option.bind_eq_bind, Option.bind_eq_some_iff, Prod.exists] at h
  obtain ⟨result, j, hparse, h⟩ := h
  cases result with
  | error e =>
    cases h
    refine ⟨_, by rw [reportError_interpreter]; exact hparse, .inl ⟨e, ?_⟩⟩
    rw [reportError_interpreter]
  | ok tree =>
    simp only [] at h
    split at h
    · cases h
    · next e τ hexec =>
      cases h
      refine ⟨_, by rw [reportError_interpreter]; exact hparse,
        .inr ⟨tree, rfl, .inl ⟨e, τ, hexec, ?_⟩⟩⟩
      rw [reportError_interpreter]
    · next v τ hexec =>
      have hj : report.interpreter = j := by
        obtain ⟨w, notices, -, -, hreport⟩ := exists_copy_of_reportResult h
        rw [hreport]
      subst hj
      exact ⟨_, hparse, .inr ⟨tree, rfl, .inr ⟨v, τ, hexec, h⟩⟩⟩

/-- An interpreter that was made for an environment and used since then. -/
inductive InUse : Interpreter → Prop
  | ofEnv (env : Env) : InUse (.ofEnv env)
  | register {i : Interpreter} (hook : Hook) : InUse i → InUse (i.register hook)
  | tokenize {i : Interpreter} (source : String) : InUse i → InUse (i.tokenize source).2
  | parse {i j : Interpreter} {source : String} {result : Except SyntaxError (Stamped Program)} :
      InUse i → i.parse source = some (result, j) → InUse j
  | runIn {fuel : Nat} {i : Interpreter} {env : Env} {source : String} {σ : Store}
      {report : RunReport} :
      InUse i → i.runIn fuel env source σ = some report → InUse report.interpreter

/-- Every way to use an interpreter keeps it coherent. -/
theorem InUse.coherent {i : Interpreter} (h : i.InUse) : i.Coherent := by
  induction h with
  | ofEnv env => exact ⟨nofun, nofun⟩
  | register hook _ ih => exact ⟨ih.tokens, ih.tree⟩
  | tokenize source _ ih => exact (ih.tokenize source).1
  | parse _ hparse ih => exact (ih.parse hparse).1
  | runIn _ hrun ih =>
    obtain ⟨result, hparse, -⟩ := exists_parse_of_runIn hrun
    exact (ih.parse hparse).1

end Interpreter
end Scriptlet
