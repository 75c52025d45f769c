import Scriptlet.Proofs.Cursor
import Scriptlet.Stmt.Parse

/-!
# Two runs of one parser

`Refines p q` says that `p` and `q` are put together from the same primitives in the same way,
except that `p` may give up where `q` goes on.  Every parser with less fuel refines itself with more
(`exprRefines`, `stmtRefines`).  What two runs have in common is then a matter of the primitives
alone:

* fuel that is enough stays enough, and it does not matter which token stands before a cursor
  (`Refines.alike`);
* a cursor only moves on (`Refines.suffix`);
* a run that ends in front of a token goes on in the same way when more tokens follow
  (`Refines.before`).

No parser looks at its fuel except to give up, which is why fuel is no part of the grammar in §4.2
of the specification.
-/

namespace Scriptlet
namespace Parser

/-! ## 1. Refinement -/

/-- `p` does what `q` does, up to where it runs out of fuel. -/
inductive Refines : {α : Type} → Parser α → Parser α → Prop where
  | exhausted {α : Type} {q : Parser α} : Refines exhausted q
  | pure {α : Type} (a : α) : Refines (pure a) (pure a)
  /-- A refusal that says no more about the cursor than what is found there. -/
  | fail {α : Type} {fault : Cursor → SyntaxFault}
      (h : ∀ c c' : Cursor, c.found = c'.found → fault c = fault c') :
      Refines (fail fault : Parser α) (fail fault)
  | peek : Refines peek peek
  | check (kind : TokenKind) : Refines (check kind) (check kind)
  | atEnd : Refines atEnd atEnd
  | accept (kind : TokenKind) : Refines (accept kind) (accept kind)
  | advance : Refines advance advance
  | argumentName : Refines Expr.argumentName Expr.argumentName
  | bind {α β : Type} {p q : Parser α} {f g : α → Parser β} :
      Refines p q → (∀ a, Refines (f a) (g a)) → Refines (p >>= f) (q >>= g)

namespace Refines

variable {α : Type}

theorem unexpected (wanted : Wanted) :
    Refines (unexpected wanted : Parser α) (unexpected wanted) := by
  apply Refines.fail
  intro c c' hfound
  rw [hfound]

theorem missing (wanted : Wanted) : Refines (missing wanted : Parser α) (missing wanted) := by
  apply Refines.fail
  intro c c' hfound
  rw [hfound]

theorem expect (s : Symbol) : Refines (expect s) (expect s) := by
  refine .bind (.accept _) fun found => ?_
  cases found with
  | true => exact .pure ()
  | false => exact .missing _

theorem identifier : Refines identifier identifier := by
  refine .bind .peek fun t => ?_
  split
  · exact .bind .advance fun _ => .pure _
  · exact .missing _

theorem require {p q : Parser (Option α)} (wanted : Wanted) (h : Refines p q) :
    Refines (require wanted p) (require wanted q) := by
  refine .bind h fun result => ?_
  cases result with
  | some a => exact .pure a
  | none => exact .unexpected _

end Refines
end Parser

open Scriptlet.Parser

/-! ## 2. Fuel

One lemma for each parser: what it is put together from with more fuel. -/

structure ExprRefines (n m : Nat) : Prop where
  parse? (level : Nat) : Refines (Expr.parse? n level) (Expr.parse? m level)
  operand? : Refines (Expr.operand? n) (Expr.operand? m)
  extend (level : Nat) (left : Expr) : Refines (Expr.extend n level left) (Expr.extend m level left)
  continueWith (left : Expr) (k : Expr.Continuation) :
    Refines (Expr.continueWith n left k) (Expr.continueWith m left k)
  listItems : Refines (Expr.listItems n) (Expr.listItems m)
  arguments : Refines (Expr.arguments n) (Expr.arguments m)
  stringParts : Refines (Expr.stringParts n) (Expr.stringParts m)

namespace ExprRefines

variable {n m : Nat}

theorem expression (h : ExprRefines n m) (level : Nat) :
    Refines (require .expression (Expr.parse? n level))
      (require .expression (Expr.parse? m level)) :=
  .require _ (h.parse? level)

theorem parse?_succ (h : ExprRefines n m) (level : Nat) :
    Refines (Expr.parse? (n + 1) level) (Expr.parse? (m + 1) level) := by
  refine .bind h.operand? fun result => ?_
  cases result with
  | some left => exact .bind (h.extend level left) fun _ => .pure _
  | none => exact .pure none

theorem operand?_succ (h : ExprRefines n m) :
    Refines (Expr.operand? (n + 1)) (Expr.operand? (m + 1)) := by
  refine .bind .peek fun t => ?_
  generalize t.kind = kind
  split
  · exact .bind .advance fun _ => .bind (h.expression _) fun _ => .pure _
  cases kind with
  | int _ | float _ | bool _ | ident _ => exact .bind .advance fun _ => .pure _
  | strOpen => exact .bind .advance fun _ => .bind h.stringParts fun _ => .pure _
  | symbol s =>
    cases s with
    | lparen =>
      exact .bind .advance fun _ => .bind (h.expression _) fun _ => .bind (.expect _)
        fun _ => .pure _
    | lbracket =>
      exact .bind .advance fun _ => .bind h.listItems fun _ => .bind (.expect _) fun _ => .pure _
    | _ => exact .pure none
  | _ => exact .pure none

theorem extend_succ (h : ExprRefines n m) (level : Nat) (left : Expr) :
    Refines (Expr.extend (n + 1) level left) (Expr.extend (m + 1) level left) := by
  refine .bind .peek fun t => ?_
  split
  · split
    · exact .bind .advance fun _ => .bind (h.continueWith left _) fun longer =>
        h.extend level longer
    · exact .pure left
  · exact .pure left

theorem continueWith_succ (h : ExprRefines n m) (left : Expr) (k : Expr.Continuation) :
    Refines (Expr.continueWith (n + 1) left k) (Expr.continueWith (m + 1) left k) := by
  cases k with
  | binary op => exact .bind (h.expression _) fun _ => .pure _
  | ternary =>
    exact .bind (h.expression _) fun _ => .bind (.expect _) fun _ => .bind (h.expression _)
      fun _ => .pure _
  | call => exact .bind h.arguments fun _ => .bind (.expect _) fun _ => .pure _
  | subscript => exact .bind (h.expression _) fun _ => .bind (.expect _) fun _ => .pure _
  | step op => exact .pure _

theorem listItems_succ (h : ExprRefines n m) :
    Refines (Expr.listItems (n + 1)) (Expr.listItems (m + 1)) := by
  refine .bind (.check _) fun closed => .bind .atEnd fun ended => ?_
  split
  · exact .pure _
  · refine .bind (h.expression _) fun item => .bind (.accept _) fun more => ?_
    split
    · exact .bind h.listItems fun _ => .pure _
    · exact .pure _

theorem arguments_succ (h : ExprRefines n m) :
    Refines (Expr.arguments (n + 1)) (Expr.arguments (m + 1)) := by
  refine .bind (.check _) fun closed => .bind .atEnd fun ended => ?_
  split
  · exact .pure _
  · refine .bind .argumentName fun name => .bind (h.expression _) fun value => .bind (.accept _)
      fun more => ?_
    split
    · exact .bind h.arguments fun _ => .pure _
    · exact .pure _

theorem stringParts_succ (h : ExprRefines n m) :
    Refines (Expr.stringParts (n + 1)) (Expr.stringParts (m + 1)) := by
  refine .bind .peek fun t => ?_
  split
  · exact .bind .advance fun _ => .bind h.stringParts fun _ => .pure _
  · refine .bind .advance fun _ => .bind (h.expression _) fun e => .bind (.accept _)
      fun closed => ?_
    split
    · exact .bind h.stringParts fun _ => .pure _
    · exact .missing _
  · exact .bind .advance fun _ => .pure _
  · exact .unexpected _

end ExprRefines

/-- Induction on the smaller amount; the larger one is a successor whenever the smaller one is. -/
theorem exprRefines {n m : Nat} (h : n ≤ m) : ExprRefines n m := by
  induction n generalizing m with
  | zero =>
    exact ⟨fun _ => .exhausted, .exhausted, fun _ _ => .exhausted, fun _ _ => .exhausted,
      .exhausted, .exhausted, .exhausted⟩
  | succ n ih =>
    obtain ⟨m, rfl⟩ : ∃ k, m = k + 1 := ⟨m - 1, by omega⟩
    have hless := ih (Nat.le_of_succ_le_succ h)
    exact ⟨hless.parse?_succ, hless.operand?_succ, hless.extend_succ, hless.continueWith_succ,
      hless.listItems_succ, hless.arguments_succ, hless.stringParts_succ⟩

section Statements

variable {n m : Nat}

theorem refines_parseCondition (h : n ≤ m) :
    Refines (Stmt.parseCondition n) (Stmt.parseCondition m) :=
  .bind (.expect _) fun _ => .bind ((exprRefines h).expression _) fun _ => .bind (.expect _)
    fun _ => .pure _

theorem refines_optionalSemicolon : Refines Stmt.optionalSemicolon Stmt.optionalSemicolon :=
  .bind (.accept _) fun _ => .pure _

theorem refines_parseLabels (h : n ≤ m) : Refines (Stmt.parseLabels n) (Stmt.parseLabels m) := by
  induction n generalizing m with
  | zero => exact .exhausted
  | succ n ih =>
    obtain ⟨m, rfl⟩ : ∃ k, m = k + 1 := ⟨m - 1, by omega⟩
    have hle : n ≤ m := Nat.le_of_succ_le_succ h
    refine .bind (.accept _) fun isCase => ?_
    split
    · exact .bind ((exprRefines hle).expression _) fun _ => .bind (.expect _) fun _ =>
        .bind (ih hle) fun _ => .pure _
    · refine .bind (.accept _) fun isDefault => ?_
      split
      · exact .bind (.expect _) fun _ => .bind (ih hle) fun _ => .pure _
      · exact .pure _

theorem refines_parseSomeLabels (h : n ≤ m) :
    Refines (Stmt.parseSomeLabels n) (Stmt.parseSomeLabels m) := by
  refine .bind (refines_parseLabels h) fun labels => ?_
  split
  · exact .unexpected _
  · exact .pure _

theorem refines_paramDefault (h : n ≤ m) (name : String) :
    Refines (Stmt.paramDefault n name) (Stmt.paramDefault m name) := by
  refine .bind (.accept _) fun given => ?_
  split
  · refine .bind ((exprRefines h).parse? _) fun value => ?_
    split
    · exact .pure _
    · exact .fail fun _ _ _ => rfl
  · exact .pure _

theorem refines_parseParams (h : n ≤ m) : Refines (Stmt.parseParams n) (Stmt.parseParams m) := by
  induction n generalizing m with
  | zero => exact .exhausted
  | succ n ih =>
    obtain ⟨m, rfl⟩ : ∃ k, m = k + 1 := ⟨m - 1, by omega⟩
    have hle : n ≤ m := Nat.le_of_succ_le_succ h
    refine .bind (.check _) fun closed => .bind .atEnd fun ended => ?_
    split
    · exact .pure _
    · refine .bind .peek fun t => .bind .identifier fun name =>
        .bind (refines_paramDefault hle name) fun _ => ?_
      refine .bind (.accept _) fun more => ?_
      split
      · exact .bind (ih hle) fun _ => .pure _
      · exact .pure _

structure StmtRefines (n m : Nat) : Prop where
  parseMany (stop : TokenKind → Bool) : Refines (Stmt.parseMany n stop) (Stmt.parseMany m stop)
  parse? : Refines (Stmt.parse? n) (Stmt.parse? m)
  parseBody : Refines (Stmt.parseBody n) (Stmt.parseBody m)
  parseBlock : Refines (Stmt.parseBlock n) (Stmt.parseBlock m)
  parseSections : Refines (Stmt.parseSections n) (Stmt.parseSections m)

namespace StmtRefines

theorem parseMany_succ (h : StmtRefines n m) (stop : TokenKind → Bool) :
    Refines (Stmt.parseMany (n + 1) stop) (Stmt.parseMany (m + 1) stop) := by
  refine .bind .atEnd fun ended => .bind .peek fun t => ?_
  split
  · exact .pure _
  · refine .bind h.parse? fun result => ?_
    cases result with
    | some s => exact .bind (h.parseMany stop) fun _ => .pure _
    | none => exact .bind .advance fun _ => h.parseMany stop

theorem parse?_succ (h : StmtRefines n m) (hle : n ≤ m) :
    Refines (Stmt.parse? (n + 1)) (Stmt.parse? (m + 1)) := by
  have hexpr := (exprRefines hle).parse? Level.lowest
  refine .bind .peek fun t => ?_
  split
  · exact .bind h.parseBlock fun _ => .pure _
  · refine .bind .advance fun _ => .bind (refines_parseCondition hle) fun _ =>
      .bind h.parseBody fun _ => ?_
    refine .bind (.accept _) fun other => ?_
    split
    · exact .bind h.parseBody fun _ => .pure _
    · exact .pure _
  · refine .bind .advance fun _ => .bind (refines_parseCondition hle) fun _ => .bind (.accept _)
      fun braced => ?_
    split
    · exact .bind h.parseSections fun _ => .bind (.expect _) fun _ => .pure _
    · exact .bind (refines_parseSomeLabels hle) fun _ => .bind h.parseBody fun _ => .pure _
  · exact .bind .advance fun _ => .bind (refines_parseCondition hle) fun _ => .bind h.parseBody
      fun _ => .pure _
  · refine .bind .advance fun _ => .bind (.expect _) fun _ => .bind hexpr fun _ =>
      .bind (.expect _) fun _ => ?_
    refine .bind hexpr fun _ => .bind (.expect _) fun _ => .bind hexpr fun _ =>
      .bind (.expect _) fun _ => ?_
    exact .bind h.parseBody fun _ => .pure _
  · refine .bind .advance fun _ => .bind .identifier fun name => .bind (.expect _) fun _ => ?_
    refine .bind (refines_parseParams hle) fun _ => .bind (.expect _) fun _ => .bind (.check _)
      fun body => ?_
    split
    · exact .bind h.parseBlock fun _ => .pure _
    · exact .fail fun _ _ _ => rfl
  · exact .bind .advance fun _ => .bind refines_optionalSemicolon fun _ => .pure _
  · exact .bind .advance fun _ => .bind refines_optionalSemicolon fun _ => .pure _
  · exact .bind .advance fun _ => .bind hexpr fun _ => .bind refines_optionalSemicolon
      fun _ => .pure _
  · refine .bind hexpr fun result => ?_
    cases result with
    | some e => exact .bind refines_optionalSemicolon fun _ => .pure _
    | none => exact .pure none

theorem parseBody_succ (h : StmtRefines n m) :
    Refines (Stmt.parseBody (n + 1)) (Stmt.parseBody (m + 1)) := by
  refine .bind .peek fun t => .bind (.accept _) fun empty => ?_
  split
  · exact .pure _
  · exact .require _ h.parse?

theorem parseBlock_succ (h : StmtRefines n m) :
    Refines (Stmt.parseBlock (n + 1)) (Stmt.parseBlock (m + 1)) :=
  .bind (.expect _) fun _ => .bind (h.parseMany _) fun _ => .bind (.expect _) fun _ => .pure _

theorem parseSections_succ (h : StmtRefines n m) (hle : n ≤ m) :
    Refines (Stmt.parseSections (n + 1)) (Stmt.parseSections (m + 1)) := by
  refine .bind (.check _) fun closed => .bind .atEnd fun ended => ?_
  split
  · exact .pure _
  · refine .bind (refines_parseSomeLabels hle) fun _ => .bind (h.parseMany _) fun _ =>
      .bind h.parseSections fun _ => ?_
    exact .pure _

end StmtRefines

/-- The same induction for statements. -/
theorem stmtRefines (h : n ≤ m) : StmtRefines n m := by
  induction n generalizing m with
  | zero => exact ⟨fun _ => .exhausted, .exhausted, .exhausted, .exhausted, .exhausted⟩
  | succ n ih =>
    obtain ⟨m, rfl⟩ : ∃ k, m = k + 1 := ⟨m - 1, by omega⟩
    have hle : n ≤ m := Nat.le_of_succ_le_succ h
    have hless := ih hle
    exact ⟨hless.parseMany_succ, hless.parse?_succ hle, hless.parseBody_succ, hless.parseBlock_succ,
      hless.parseSections_succ hle⟩

end Statements

/-! ## 3. What two runs have in common

Each property is an induction over `Refines`, with a case for each primitive. -/

def Cursor.second (c : Cursor) : Option TokenKind := (c.rest.drop 1).head?.map (·.kind)

/-- An argument has a name if an identifier is next, in front of a colon. -/
def Cursor.Named (c : Cursor) (name : String) : Prop :=
  c.peek.kind = .ident name ∧ c.second = some (.symbol .colon)

/-- A name is taken together with its colon. -/
theorem argumentName_of_named {c : Cursor} {name : String} (h : c.Named name) :
    Expr.argumentName c = .ok (some name) c.advance.advance := by
  obtain ⟨hkind, hsecond⟩ := h
  have hrun : peekSecond c = .ok (some (.symbol .colon)) c := by rw [← hsecond]; rfl
  rw [Expr.argumentName, bind_run_of_ok (peek_run _), bind_run_of_ok hrun, hkind]
  rfl

theorem argumentName_of_not_named {c : Cursor} (h : ∀ name, ¬c.Named name) :
    Expr.argumentName c = .ok none c := by
  have hrun : peekSecond c = .ok c.second c := rfl
  rw [Expr.argumentName, bind_run_of_ok (peek_run _), bind_run_of_ok hrun]
  refine congrFun (?_ : _ = pure none) _
  split
  · next name hkind hsecond => exact absurd ⟨hkind, hsecond⟩ (h name)
  · rfl

namespace Cursor

variable {c c' : Cursor}

theorem advance_of_cons {previous : Option Token} {t : Token} (h : t.kind ≠ .eof)
    (rest : List Token) :
    advance ⟨previous, t :: rest⟩ = ⟨some t, rest⟩ := by
  simp [advance, h]

/-- The input is not used up in front of a token other than the mark of the end. -/
theorem atEnd_eq_false_iff : c.atEnd = false ↔ ∃ t rest, c.rest = t :: rest ∧ t.kind ≠ .eof := by
  obtain ⟨previous, rest⟩ := c
  cases rest with
  | nil => simp [atEnd, peek]
  | cons t rest =>
    constructor
    · intro hend
      exact ⟨t, rest, rfl, of_decide_eq_false hend⟩
    · rintro ⟨u, us, heq, hu⟩
      obtain ⟨rfl, -⟩ := List.cons.inj heq
      exact decide_eq_false hu

/-- Two cursors in front of the same tokens, which are equal where the input is used up. -/
def Alike (c c' : Cursor) : Prop := c = c' ∨ c.rest = c'.rest ∧ c.atEnd = false

/-- Different cursors that are alike stand in front of the same next token. -/
theorem Alike.cases (h : c.Alike c') : c = c' ∨ ∃ previous previous' t rest,
    c = ⟨previous, t :: rest⟩ ∧ c' = ⟨previous', t :: rest⟩ ∧ t.kind ≠ .eof := by
  rcases h with rfl | ⟨hrest, hend⟩
  · exact .inl rfl
  · obtain ⟨t, rest, hcons, ht⟩ := atEnd_eq_false_iff.1 hend
    obtain ⟨previous, tokens⟩ := c
    obtain ⟨previous', tokens'⟩ := c'
    subst hcons
    subst hrest
    exact .inr ⟨previous, previous', t, rest, rfl, rfl, ht⟩

theorem Alike.peek (h : c.Alike c') : c.peek = c'.peek := by
  obtain rfl | ⟨previous, previous', t, rest, rfl, rfl, -⟩ := h.cases
  · rfl
  · rfl

theorem Alike.second (h : c.Alike c') : c.second = c'.second := by
  obtain rfl | ⟨previous, previous', t, rest, rfl, rfl, -⟩ := h.cases
  · rfl
  · rfl

theorem Alike.atEnd (h : c.Alike c') : c.atEnd = c'.atEnd := by
  rw [Cursor.atEnd, Cursor.atEnd, h.peek]

theorem Alike.found (h : c.Alike c') : c.found = c'.found := by
  rw [Cursor.found, Cursor.found, h.atEnd, h.peek]

/-- Only at the end does the position of an error depend on the token before. -/
theorem Alike.errorPosition (h : c.Alike c') : c.errorPosition = c'.errorPosition := by
  obtain rfl | ⟨previous, previous', t, rest, rfl, rfl, ht⟩ := h.cases
  · rfl
  · simp [Cursor.errorPosition, Cursor.atEnd, Cursor.peek, ht]

/-- Behind the next token, both cursors have the same token before them. -/
theorem Alike.advance (h : c.Alike c') : c.advance.Alike c'.advance := by
  obtain rfl | ⟨previous, previous', t, rest, rfl, rfl, ht⟩ := h.cases
  · exact .inl rfl
  · rw [advance_of_cons ht, advance_of_cons ht]
    exact .inl rfl

/-- The mark of the end is never passed. -/
theorem suffix_advance (c : Cursor) : c.advance.rest <:+ c.rest := by
  obtain ⟨previous, rest⟩ := c
  cases rest with
  | nil => exact List.suffix_refl _
  | cons t rest =>
    by_cases ht : t.kind = .eof
    · simp [Cursor.advance, ht]
    · rw [advance_of_cons ht]
      exact List.suffix_cons t rest

/-- The cursor with more tokens behind those that it has. -/
def before (c : Cursor) (more : List Token) : Cursor := ⟨c.previous, c.rest ++ more⟩

theorem exists_cons_of_rest_ne (h : c.rest ≠ []) :
    ∃ previous t rest, c = ⟨previous, t :: rest⟩ := by
  obtain ⟨previous, rest⟩ := c
  cases rest with
  | nil => exact absurd rfl h
  | cons t rest => exact ⟨previous, t, rest, rfl⟩

theorem peek_before (h : c.rest ≠ []) (more : List Token) : (c.before more).peek = c.peek := by
  obtain ⟨previous, t, rest, rfl⟩ := exists_cons_of_rest_ne h
  rfl

/-- A cursor with a token left advances over it, whatever follows. -/
theorem advance_before (h : c.rest ≠ []) (more : List Token) :
    (c.before more).advance = c.advance.before more := by
  obtain ⟨previous, t, rest, rfl⟩ := exists_cons_of_rest_ne h
  by_cases ht : t.kind = .eof
  · simp [before, advance, ht]
  · rw [advance_of_cons ht, before, List.cons_append, advance_of_cons ht]
    rfl

/-- What follows does not make a name of the last token, unless it starts with a colon. -/
theorem named_before {more : List Token} (hmore : (Cursor.mk none more).peek.kind ≠ .symbol .colon)
    (h : c.rest ≠ []) (name : String) : (c.before more).Named name ↔ c.Named name := by
  obtain ⟨previous, t, rest, rfl⟩ := exists_cons_of_rest_ne h
  cases rest with
  | nil =>
    have hsecond : (Cursor.before ⟨previous, [t]⟩ more).second ≠ some (.symbol .colon) := by
      cases more with
      | nil => simp [second, before]
      | cons u more => simpa [second, before] using hmore
    exact ⟨fun hnamed => absurd hnamed.2 hsecond, fun hnamed => nomatch hnamed.2⟩
  | cons u rest => exact Iff.rfl

end Cursor

/-- Results of two runs that agree, unless the first one ran out of fuel. -/
def ParseResult.Alike {α : Type} : ParseResult α → ParseResult α → Prop
  | .ok a d, .ok a' d' => a = a' ∧ d.Alike d'
  | .error e, .error e' => e = e'
  | .exhausted, _ => True
  | _, _ => False

/-- A result is not changed by more fuel. -/
theorem ParseResult.Alike.eq_ok {α : Type} {r : ParseResult α} {a : α} {d : Cursor}
    (h : (ParseResult.ok a d).Alike r) :
    ∃ d', r = .ok a d' := by
  cases r with
  | ok a' d' =>
    obtain ⟨rfl, -⟩ := h
    exact ⟨d', rfl⟩
  | error e => exact h.elim
  | exhausted => exact h.elim

theorem ParseResult.Alike.eq_error {α : Type} {r : ParseResult α} {e : SyntaxError}
    (h : (ParseResult.error e).Alike r) : r = .error e := by
  cases r with
  | ok a d => exact h.elim
  | error e' =>
    have heq : e = e' := h
    rw [heq]
  | exhausted => exact h.elim

/-- A sequence that succeeds is two parsers that succeed. -/
theorem Parser.exists_of_bind_ok {α β : Type} {p : Parser α} {f : α → Parser β}
    {c d : Cursor} {b : β} (h : (p >>= f) c = .ok b d) :
    ∃ a c', p c = .ok a c' ∧ f a c' = .ok b d := by
  simp only [Bind.bind] at h
  cases hp : p c with
  | ok a c' =>
    rw [hp] at h
    exact ⟨a, c', rfl, h⟩
  | error e =>
    rw [hp] at h
    cases h
  | exhausted =>
    rw [hp] at h
    cases h

theorem Parser.accept_cases {kind : TokenKind} {found : Bool} {c d : Cursor}
    (h : accept kind c = .ok found d) :
    c.peek.kind = kind ∧ found = true ∧ d = c.advance ∨
      c.peek.kind ≠ kind ∧ found = false ∧ d = c := by
  by_cases hkind : c.peek.kind = kind
  · rw [accept_of_eq hkind] at h
    cases h
    exact .inl ⟨hkind, rfl, rfl⟩
  · rw [accept_of_ne hkind] at h
    cases h
    exact .inr ⟨hkind, rfl, rfl⟩

/-- Either both tokens of a name are there, or nothing is consumed. -/
theorem argumentName_cases {result : Option String} {c d : Cursor}
    (h : Expr.argumentName c = .ok result d) :
    (∃ name, c.Named name ∧ result = some name ∧ d = c.advance.advance) ∨
      (∀ name, ¬c.Named name) ∧ result = none ∧ d = c := by
  by_cases hnamed : ∃ name, c.Named name
  · obtain ⟨name, hname⟩ := hnamed
    rw [argumentName_of_named hname] at h
    cases h
    exact .inl ⟨name, hname, rfl, rfl⟩
  · have hnone : ∀ name, ¬c.Named name := fun name hname => hnamed ⟨name, hname⟩
    rw [argumentName_of_not_named hnone] at h
    cases h
    exact .inr ⟨hnone, rfl, rfl⟩

namespace Parser.Refines

variable {α : Type} {p q : Parser α}

/-- From cursors that look alike, more fuel gives the same result. -/
theorem alike (h : Refines p q) {c c' : Cursor} (hc : c.Alike c') : (p c).Alike (q c') := by
  induction h generalizing c c' with
  | exhausted => trivial
  | pure a => exact ⟨rfl, hc⟩
  | @fail _ fault hfault =>
    have herror : SyntaxError.mk (fault c) c.errorPosition = ⟨fault c', c'.errorPosition⟩ := by
      rw [hfault c c' hc.found, hc.errorPosition]
    exact herror
  | peek => exact ⟨hc.peek, hc⟩
  | check kind => exact ⟨by rw [hc.peek], hc⟩
  | atEnd => exact ⟨hc.atEnd, hc⟩
  | accept kind =>
    by_cases hkind : c.peek.kind = kind
    · rw [accept_of_eq hkind, accept_of_eq (hc.peek ▸ hkind)]
      exact ⟨rfl, hc.advance⟩
    · rw [accept_of_ne hkind, accept_of_ne (hc.peek ▸ hkind)]
      exact ⟨rfl, hc⟩
  | advance => exact ⟨rfl, hc.advance⟩
  | argumentName =>
    have hiff : ∀ name, c.Named name ↔ c'.Named name := fun name => by
      rw [Cursor.Named, Cursor.Named, hc.peek, hc.second]
    by_cases hnamed : ∃ name, c.Named name
    · obtain ⟨name, hname⟩ := hnamed
      rw [argumentName_of_named hname, argumentName_of_named ((hiff name).1 hname)]
      exact ⟨rfl, hc.advance.advance⟩
    · have hnone : ∀ name, ¬c.Named name := fun name hname => hnamed ⟨name, hname⟩
      rw [argumentName_of_not_named hnone, argumentName_of_not_named fun name hname =>
        hnone name ((hiff name).2 hname)]
      exact ⟨rfl, hc⟩
  | @bind α β p q f g _ _ ihp ihf =>
    have hfirst := ihp hc
    simp only [Bind.bind]
    cases hp : p c with
    | exhausted => trivial
    | error e =>
      rw [hp] at hfirst
      cases hq : q c' with
      | error e' =>
        rw [hq] at hfirst
        exact hfirst
      | ok a d | exhausted =>
        rw [hq] at hfirst
        exact hfirst.elim
    | ok a d =>
      rw [hp] at hfirst
      cases hq : q c' with
      | ok a' d' =>
        rw [hq] at hfirst
        obtain ⟨rfl, hd⟩ := hfirst
        exact ihf a hd
      | error e | exhausted =>
        rw [hq] at hfirst
        exact hfirst.elim

/-- A parser only moves on. -/
theorem suffix (h : Refines p q) {c d : Cursor} {a : α} (hp : p c = .ok a d) :
    d.rest <:+ c.rest := by
  induction h generalizing c d with
  | exhausted => cases hp
  | fail hfault => cases hp
  | pure _ | peek | check _ | atEnd =>
    cases hp
    exact List.suffix_refl _
  | advance =>
    cases hp
    exact c.suffix_advance
  | accept kind =>
    obtain ⟨-, -, rfl⟩ | ⟨-, -, rfl⟩ := accept_cases hp
    · exact c.suffix_advance
    · exact List.suffix_refl _
  | argumentName =>
    obtain ⟨name, -, -, rfl⟩ | ⟨-, -, rfl⟩ := argumentName_cases hp
    · exact c.advance.suffix_advance.trans c.suffix_advance
    · exact List.suffix_refl _
  | bind _ _ ihp ihf =>
    obtain ⟨b, c', hfirst, hsecond⟩ := exists_of_bind_ok hp
    exact (ihf b hsecond).trans (ihp hfirst)

/-- A parser that leaves something had something. -/
theorem rest_ne_of_suffix {c d : Cursor} (h : d.rest <:+ c.rest) (hd : d.rest ≠ []) :
    c.rest ≠ [] := by
  intro hc
  rw [hc, List.suffix_nil] at h
  exact hd h

/-- A run that ends in front of a token is not changed by what follows the tokens. -/
theorem before (h : Refines p q) {more : List Token}
    (hmore : (Cursor.mk none more).peek.kind ≠ .symbol .colon) {c d : Cursor} {a : α}
    (hp : p c = .ok a d) (hd : d.rest ≠ []) : q (c.before more) = .ok a (d.before more) := by
  have hc : c.rest ≠ [] := rest_ne_of_suffix (h.suffix hp) hd
  induction h generalizing c d with
  | exhausted => cases hp
  | fail hfault => cases hp
  | pure a =>
    cases hp
    rfl
  | peek =>
    cases hp
    rw [peek_run, Cursor.peek_before hc]
  | check kind =>
    cases hp
    rw [check_run, Cursor.peek_before hc]
  | atEnd =>
    cases hp
    rw [atEnd_run, Cursor.atEnd, Cursor.peek_before hc]
    rfl
  | advance =>
    cases hp
    exact congrArg (ParseResult.ok ()) (Cursor.advance_before hc more)
  | accept kind =>
    obtain ⟨hkind, rfl, rfl⟩ | ⟨hkind, rfl, rfl⟩ := accept_cases hp
    · rw [accept_of_eq (by rwa [Cursor.peek_before hc]), Cursor.advance_before hc]
    · rw [accept_of_ne (by rwa [Cursor.peek_before hc])]
  | argumentName =>
    obtain ⟨name, hname, rfl, rfl⟩ | ⟨hnone, rfl, rfl⟩ := argumentName_cases hp
    · have hnext : c.advance.rest ≠ [] := rest_ne_of_suffix c.advance.suffix_advance hd
      rw [argumentName_of_named ((Cursor.named_before hmore hc name).2 hname),
        Cursor.advance_before hc, Cursor.advance_before hnext]
    · exact argumentName_of_not_named fun name hname =>
        hnone name ((Cursor.named_before hmore hc name).1 hname)
  | bind hp' hf ihp ihf =>
    obtain ⟨b, c', hfirst, hsecond⟩ := exists_of_bind_ok hp
    have hc' : c'.rest ≠ [] := rest_ne_of_suffix ((hf b).suffix hsecond) hd
    rw [bind_run_of_ok (ihp hfirst hc' hc)]
    exact ihf b hsecond hd hc'

end Parser.Refines
end Scriptlet
