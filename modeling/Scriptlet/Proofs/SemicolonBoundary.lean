import Scriptlet.Proofs.ParserRefinement
import Scriptlet.Proofs.StmtRoundTrip

/-!
# A semicolon is a boundary between programs

The tokens of a program are parsed once with the end of the input behind them and once with a
semicolon and another program behind them.  As long as a parser stops in front of a token the two
runs agree (`Refines.before`), so only what happens at the end is left to compare.  There an
expression ends in front of the semicolon as it does at the end of the input (`Continues`).  A
statement ends in front of it too or takes it (`Crosses`), and then what follows is the second
program, since an `else` is all that could still belong to the statement.

That a semicolon behind a statement is optional is §4.2 of the specification.
-/

namespace Scriptlet
open Scriptlet.Parser

section Boundary

variable {α β : Type} {semicolon : Token} {more : List Token} {c : Cursor} {n m : Nat}

/-! ## 1. In front of the semicolon

One run has `tail` behind its tokens, the other one has nothing. -/

/-- From this cursor the run with the semicolon behind the tokens ends where the run without it
does. -/
def ContinuesAt (tail : List Token) (c : Cursor) (p q : Parser α) : Prop :=
  ∀ a d, p c = .ok a d → q (c.before tail) = .ok a (d.before tail)

def Continues (tail : List Token) (p q : Parser α) : Prop := ∀ c, ContinuesAt tail c p q

variable {tail : List Token} {p q : Parser α} {f g : α → Parser β}

theorem Continues.pure (a : α) : Continues tail (pure a) (pure a) := by
  rintro c _ _ ⟨⟩
  rfl

theorem Continues.exhausted : Continues tail exhausted q := by
  intro c a d h
  cases h

theorem Continues.fail {fault : Cursor → SyntaxFault} : Continues tail (fail fault) q := by
  intro c a d h
  cases h

theorem ContinuesAt.bind (h : ContinuesAt tail c p q)
    (hf : ∀ a d, p c = .ok a d → ContinuesAt tail d (f a) (g a)) :
    ContinuesAt tail c (p >>= f) (q >>= g) := by
  intro b d hrun
  obtain ⟨a, c', hp, hrest⟩ := exists_of_bind_ok hrun
  rw [bind_run_of_ok (h a c' hp)]
  exact hf a c' hp b d hrest

theorem Continues.bind (h : Continues tail p q) (hf : ∀ a, Continues tail (f a) (g a)) :
    Continues tail (p >>= f) (q >>= g) :=
  fun c => (h c).bind fun a d _ => hf a d

theorem ContinuesAt.advance (h : c.rest ≠ []) : ContinuesAt tail c advance advance := by
  rintro _ _ ⟨⟩
  exact congrArg (ParseResult.ok ()) (Cursor.advance_before h tail)

/-- In front of a token both runs look at that token. -/
theorem ContinuesAt.peek {f g : Token → Parser β} (hne : c.rest ≠ [])
    (h : ContinuesAt tail c (f c.peek) (g c.peek)) :
    ContinuesAt tail c (peek >>= f) (peek >>= g) := by
  intro b d hrun
  rw [bind_run_of_ok (peek_run _), Cursor.peek_before hne]
  exact h b d ((bind_run_of_ok (peek_run c) f).symm.trans hrun)

theorem Continues.require {wanted : Wanted} {p q : Parser (Option α)} (h : Continues tail p q) :
    Continues tail (require wanted p) (require wanted q) := by
  refine h.bind fun result => ?_
  cases result with
  | some a => exact .pure a
  | none => exact .fail

/-- At the end of a list of tokens the next one is the mark of the end. -/
theorem rest_ne_nil_of_peek (h : c.peek.kind ≠ .eof) : c.rest ≠ [] := by
  intro hnil
  obtain ⟨previous, rest⟩ := c
  subst hnil
  exact h rfl

/-- Only a symbol that is there is consumed. -/
theorem Continues.expect (s : Symbol) : Continues tail (expect s) (expect s) := by
  intro c a d hrun
  obtain ⟨found, c', haccept, hrest⟩ := exists_of_bind_ok hrun
  obtain ⟨hkind, rfl, rfl⟩ | ⟨-, rfl, rfl⟩ := accept_cases haccept
  · have hne : c.rest ≠ [] := rest_ne_nil_of_peek (by simp [hkind])
    cases hrest
    unfold Parser.expect
    rw [bind_run_of_ok (accept_of_eq (by rw [Cursor.peek_before hne, hkind])),
      Cursor.advance_before hne]
    rfl
  · cases hrest

theorem Continues.identifier : Continues tail identifier identifier := by
  intro c
  by_cases hne : c.rest = []
  · obtain ⟨previous, rest⟩ := c
    subst hne
    rintro _ _ ⟨⟩
  · refine .peek hne ?_
    split
    · exact (ContinuesAt.advance hne).bind fun _ d _ => Continues.pure _ d
    · exact Continues.fail c

section Semicolon

variable (hsemicolon : semicolon.kind = .symbol .semicolon)
include hsemicolon

/-- A look for another token than a semicolon finds the same at both ends. -/
theorem Continues.accept {kind : TokenKind} (hkind : kind ≠ .symbol .semicolon)
    (hend : kind ≠ .eof) :
    Continues (semicolon :: more) (accept kind) (accept kind) := by
  intro c found d hrun
  by_cases hne : c.rest = []
  · obtain ⟨previous, rest⟩ := c
    subst hne
    have hother : (Cursor.before ⟨previous, []⟩ (semicolon :: more)).peek.kind ≠ kind := by
      rw [Cursor.before, List.nil_append, peek_cons, hsemicolon]
      exact hkind.symm
    rw [accept_of_ne (show (Cursor.peek ⟨previous, []⟩).kind ≠ kind from hend.symm)] at hrun
    rw [accept_of_ne hother]
    cases hrun
    rfl
  · obtain ⟨hsame, rfl, rfl⟩ | ⟨hother, rfl, rfl⟩ := accept_cases hrun
    · rw [accept_of_eq (by rwa [Cursor.peek_before hne]), Cursor.advance_before hne]
    · rw [accept_of_ne (by rwa [Cursor.peek_before hne])]

theorem Continues.check {kind : TokenKind} (hkind : kind ≠ .symbol .semicolon)
    (hend : kind ≠ .eof) :
    Continues (semicolon :: more) (check kind) (check kind) := by
  rintro c _ _ ⟨⟩
  by_cases hne : c.rest = []
  · obtain ⟨previous, rest⟩ := c
    subst hne
    have hlast : (Cursor.peek ⟨previous, []⟩).kind ≠ kind := hend.symm
    have hother : (Cursor.before ⟨previous, []⟩ (semicolon :: more)).peek.kind ≠ kind := by
      rw [Cursor.before, List.nil_append, peek_cons, hsemicolon]
      exact hkind.symm
    rw [check_run, decide_eq_false hother, decide_eq_false hlast]
  · rw [check_run, Cursor.peek_before hne]

/-- What a symbol has to close ends in front of a token, so the runs agree up to there. -/
theorem Continues.closed (h : Refines p q) (s : Symbol)
    (hf : ∀ a, Continues (semicolon :: more) (f a) (g a)) :
    Continues (semicolon :: more) (p >>= fun a => Parser.expect s >>= fun _ => f a)
      (q >>= fun a => Parser.expect s >>= fun _ => g a) := by
  intro c b d hrun
  obtain ⟨a, c', hp, hrest⟩ := exists_of_bind_ok hrun
  have hne : c'.rest ≠ [] := by
    obtain ⟨_, _, hexpect, -⟩ := exists_of_bind_ok hrest
    obtain ⟨found, _, haccept, hfound⟩ := exists_of_bind_ok hexpect
    obtain ⟨hkind, -, -⟩ | ⟨-, rfl, -⟩ := accept_cases haccept
    · exact rest_ne_nil_of_peek (by simp [hkind])
    · cases hfound
  have hcolon : (Cursor.mk none (semicolon :: more)).peek.kind ≠ .symbol .colon := by
    rw [peek_cons, hsemicolon]
    simp
  rw [bind_run_of_ok (h.before hcolon hp hne)]
  exact (Continues.expect s).bind (fun _ => hf a) c' b d hrest

/-! ## 2. Expressions

Induction on fuel, over the parsers of the mutual block. -/

structure ExprContinues (tail : List Token) (n m : Nat) : Prop where
  parse? (level : Nat) : Continues tail (Expr.parse? n level) (Expr.parse? m level)
  operand? : Continues tail (Expr.operand? n) (Expr.operand? m)
  extend (level : Nat) (left : Expr) :
    Continues tail (Expr.extend n level left) (Expr.extend m level left)
  continueWith (left : Expr) (k : Expr.Continuation) :
    Continues tail (Expr.continueWith n left k) (Expr.continueWith m left k)
  stringParts : Continues tail (Expr.stringParts n) (Expr.stringParts m)

omit hsemicolon in
theorem ExprContinues.expression (h : ExprContinues tail n m) (level : Nat) :
    Continues tail (require .expression (Expr.parse? n level))
      (require .expression (Expr.parse? m level)) :=
  (h.parse? level).require

omit hsemicolon in
theorem ExprContinues.parse?_succ (h : ExprContinues tail n m) (level : Nat) :
    Continues tail (Expr.parse? (n + 1) level) (Expr.parse? (m + 1) level) := by
  refine .bind h.operand? fun result => ?_
  cases result with
  | some left => exact .bind (h.extend level left) fun _ => .pure _
  | none => exact .pure none

theorem ExprContinues.operand?_succ (h : ExprContinues (semicolon :: more) n m) (hle : n ≤ m) :
    Continues (semicolon :: more) (Expr.operand? (n + 1)) (Expr.operand? (m + 1)) := by
  intro c
  by_cases hne : c.rest = []
  · obtain ⟨previous, rest⟩ := c
    subst hne
    rintro _ _ hrun
    rw [operand?_none rfl] at hrun
    cases hrun
    exact operand?_none (by rw [Cursor.before, List.nil_append, peek_cons, hsemicolon]; rfl)
  refine .peek hne ?_
  generalize c.peek.kind = kind
  split
  · exact (ContinuesAt.advance hne).bind fun _ d _ =>
      Continues.bind (h.expression _) (fun _ => .pure _) d
  cases kind with
  | int _ | float _ | bool _ | ident _ =>
    exact (ContinuesAt.advance hne).bind fun _ d _ => Continues.pure _ d
  | strOpen =>
    exact (ContinuesAt.advance hne).bind fun _ d _ =>
      Continues.bind h.stringParts (fun _ => .pure _) d
  | symbol s =>
    cases s with
    | lparen =>
      refine (ContinuesAt.advance hne).bind fun _ d _ => ?_
      exact Continues.closed hsemicolon ((exprRefines hle).expression _) .rparen
        (fun _ => .pure _) d
    | lbracket =>
      refine (ContinuesAt.advance hne).bind fun _ d _ => ?_
      exact Continues.closed hsemicolon (exprRefines hle).listItems .rbracket (fun _ => .pure _) d
    | _ => exact Continues.pure none c
  | _ => exact Continues.pure none c

/-- A semicolon continues no expression, and neither does the end of the input. -/
theorem ExprContinues.extend_succ (h : ExprContinues (semicolon :: more) n m) (level : Nat)
    (left : Expr) :
    Continues (semicolon :: more) (Expr.extend (n + 1) level left)
      (Expr.extend (m + 1) level left) := by
  intro c
  by_cases hne : c.rest = []
  · obtain ⟨previous, rest⟩ := c
    subst hne
    rintro _ _ hrun
    rw [extend_stop (by rintro k ⟨⟩)] at hrun
    cases hrun
    refine extend_stop fun k hk => ?_
    rw [List.nil_append, continuation?_cons hsemicolon] at hk
    cases hk
  refine .peek hne ?_
  split
  · split
    · refine (ContinuesAt.advance hne).bind fun _ d _ => ?_
      exact Continues.bind (h.continueWith left _) (fun longer => h.extend level longer) d
    · exact Continues.pure left c
  · exact Continues.pure left c

/-- Arguments and indices are closed by a symbol; only what stands last may run up to the end. -/
theorem ExprContinues.continueWith_succ (h : ExprContinues (semicolon :: more) n m) (hle : n ≤ m)
    (left : Expr) (k : Expr.Continuation) :
    Continues (semicolon :: more) (Expr.continueWith (n + 1) left k)
      (Expr.continueWith (m + 1) left k) := by
  have hexpr := (exprRefines hle).expression Level.lowest
  cases k with
  | binary op => exact .bind (h.expression _) fun _ => .pure _
  | ternary =>
    exact .closed hsemicolon hexpr .colon fun _ => .bind (h.expression _) fun _ => .pure _
  | call => exact .closed hsemicolon (exprRefines hle).arguments .rparen fun _ => .pure _
  | subscript => exact .closed hsemicolon hexpr .rbracket fun _ => .pure _
  | step op => exact .pure _

theorem ExprContinues.stringParts_succ (h : ExprContinues (semicolon :: more) n m) :
    Continues (semicolon :: more) (Expr.stringParts (n + 1)) (Expr.stringParts (m + 1)) := by
  intro c
  by_cases hne : c.rest = []
  · obtain ⟨previous, rest⟩ := c
    subst hne
    rintro _ _ ⟨⟩
  refine .peek hne ?_
  split
  · exact (ContinuesAt.advance hne).bind fun _ d _ =>
      Continues.bind h.stringParts (fun _ => .pure _) d
  · refine (ContinuesAt.advance hne).bind fun _ d _ =>
      Continues.bind (h.expression _) (fun e => ?_) d
    refine .bind (.accept hsemicolon (by simp) (by simp)) fun closed => ?_
    split
    · exact .bind h.stringParts fun _ => .pure _
    · exact .fail
  · exact (ContinuesAt.advance hne).bind fun _ d _ => Continues.pure _ d
  · exact Continues.fail c

/-- Induction on the fuel of the run that ends with the input. -/
theorem exprContinues (h : n ≤ m) : ExprContinues (semicolon :: more) n m := by
  induction n generalizing m with
  | zero =>
    exact ⟨fun _ => .exhausted, .exhausted, fun _ _ => .exhausted,
      fun _ _ => .exhausted, .exhausted⟩
  | succ n ih =>
    obtain ⟨m, rfl⟩ : ∃ k, m = k + 1 := ⟨m - 1, by omega⟩
    have hle : n ≤ m := Nat.le_of_succ_le_succ h
    have hless := ih hle
    exact ⟨hless.parse?_succ, hless.operand?_succ hsemicolon hle, hless.extend_succ hsemicolon,
      hless.continueWith_succ hsemicolon hle, hless.stringParts_succ hsemicolon⟩

/-! ## 3. Statements

The last statement of the first program meets the end of the input in one run, and the semicolon in
the other. -/

theorem continues_parseCondition (h : n ≤ m) :
    Continues (semicolon :: more) (Stmt.parseCondition n) (Stmt.parseCondition m) :=
  .bind (.expect _) fun _ => .closed hsemicolon ((exprRefines h).expression _) .rparen
    fun _ => .pure _

theorem continues_parseLabels (h : n ≤ m) :
    Continues (semicolon :: more) (Stmt.parseLabels n) (Stmt.parseLabels m) := by
  induction n generalizing m with
  | zero => exact .exhausted
  | succ n ih =>
    obtain ⟨m, rfl⟩ : ∃ k, m = k + 1 := ⟨m - 1, by omega⟩
    have hle : n ≤ m := Nat.le_of_succ_le_succ h
    refine .bind (.accept hsemicolon (by simp) (by simp)) fun isCase => ?_
    split
    · exact .closed hsemicolon ((exprRefines hle).expression _) .colon fun _ =>
        .bind (ih hle) fun _ => .pure _
    · refine .bind (.accept hsemicolon (by simp) (by simp)) fun isDefault => ?_
      split
      · exact .bind (.expect _) fun _ => .bind (ih hle) fun _ => .pure _
      · exact .pure _

theorem continues_parseSomeLabels (h : n ≤ m) :
    Continues (semicolon :: more) (Stmt.parseSomeLabels n) (Stmt.parseSomeLabels m) := by
  refine .bind (continues_parseLabels hsemicolon h) fun labels => ?_
  split
  · exact .fail
  · exact .pure _

/-- A block is closed by a brace, so it never meets the end. -/
theorem continues_parseBlock (h : n ≤ m) :
    Continues (semicolon :: more) (Stmt.parseBlock n) (Stmt.parseBlock m) := by
  cases n with
  | zero => exact .exhausted
  | succ n =>
    obtain ⟨m, rfl⟩ : ∃ k, m = k + 1 := ⟨m - 1, by omega⟩
    have hle : n ≤ m := Nat.le_of_succ_le_succ h
    exact .bind (.expect _) fun _ => .closed hsemicolon ((stmtRefines hle).parseMany _) .rbrace
      fun _ => .pure _

omit hsemicolon

/-- From this cursor the run with the semicolon ends where the run without it does, or at the end
and past the semicolon. -/
def Crosses (semicolon : Token) (more : List Token) (c : Cursor) (p q : Parser α) : Prop :=
  ∀ a d, p c = .ok a d → q (c.before (semicolon :: more)) = .ok a (d.before (semicolon :: more)) ∨
    d.rest = [] ∧ q (c.before (semicolon :: more)) = .ok a ⟨some semicolon, more⟩

theorem ContinuesAt.crosses (h : ContinuesAt (semicolon :: more) c p q) :
    Crosses semicolon more c p q :=
  fun a d hrun => .inl (h a d hrun)

/-- Only the last part of a statement can take the semicolon. -/
theorem Crosses.after (h : ContinuesAt (semicolon :: more) c p q)
    (hf : ∀ a d, p c = .ok a d → Crosses semicolon more d (f a) (g a)) :
    Crosses semicolon more c (p >>= f) (q >>= g) := by
  intro b d hrun
  obtain ⟨a, c', hp, hrest⟩ := exists_of_bind_ok hrun
  rw [bind_run_of_ok (h a c' hp)]
  exact hf a c' hp b d hrest

theorem Crosses.peek {f g : Token → Parser β} (hne : c.rest ≠ [])
    (h : Crosses semicolon more c (f c.peek) (g c.peek)) :
    Crosses semicolon more c (peek >>= f) (peek >>= g) := by
  intro b d hrun
  rw [bind_run_of_ok (peek_run _), Cursor.peek_before hne]
  exact h b d ((bind_run_of_ok (peek_run c) f).symm.trans hrun)

theorem Crosses.map (h : Crosses semicolon more c p q) (k : α → β) :
    Crosses semicolon more c (p >>= fun a => pure (k a)) (q >>= fun a => pure (k a)) := by
  intro b d hrun
  obtain ⟨a, c', hp, hrest⟩ := exists_of_bind_ok hrun
  cases hrest
  rcases h a d hp with hrun' | ⟨hend, hrun'⟩
  · left
    rw [bind_run_of_ok hrun']
    rfl
  · right
    rw [bind_run_of_ok hrun']
    exact ⟨hend, rfl⟩

theorem Crosses.require {wanted : Wanted} {p q : Parser (Option α)}
    (h : Crosses semicolon more c p q) :
    Crosses semicolon more c (require wanted p) (require wanted q) := by
  intro b d hrun
  obtain ⟨result, c', hp, hrest⟩ := exists_of_bind_ok hrun
  cases result with
  | none => cases hrest
  | some a =>
    cases hrest
    exact (h _ _ hp).imp require_of_some (And.imp_right require_of_some)

/-- At the end of the first program the semicolon is taken. -/
theorem crosses_optionalSemicolon (hsemicolon : semicolon.kind = .symbol .semicolon) (c : Cursor) :
    Crosses semicolon more c Stmt.optionalSemicolon Stmt.optionalSemicolon := by
  by_cases hne : c.rest = []
  · obtain ⟨previous, rest⟩ := c
    subst hne
    rintro a d ⟨⟩
    exact .inr ⟨rfl, optionalSemicolon_cons hsemicolon⟩
  · refine ContinuesAt.crosses (ContinuesAt.bind ?_ fun _ d _ => Continues.pure _ d)
    intro found d hrun
    obtain ⟨hsame, rfl, rfl⟩ | ⟨hother, rfl, rfl⟩ := accept_cases hrun
    · rw [accept_of_eq (by rwa [Cursor.peek_before hne]), Cursor.advance_before hne]
    · rw [accept_of_ne (by rwa [Cursor.peek_before hne])]

/-- No statement starts at the end of the input. -/
theorem parse?_at_end {previous : Option Token} {result : Option Stmt} {d : Cursor}
    (h : Stmt.parse? n ⟨previous, []⟩ = .ok result d) :
    3 ≤ n ∧ result = none ∧ d = ⟨previous, []⟩ := by
  match n with
  | 0 | 1 | 2 => cases h
  | n + 3 =>
    have habsent : Expr.parse? (n + 2) Level.lowest ⟨previous, []⟩ = .ok none ⟨previous, []⟩ :=
      parse?_none rfl
    rw [Stmt.parse?, bind_run_of_ok (peek_run _)] at h
    cases (bind_run_of_ok habsent _).symm.trans h
    exact ⟨by omega, rfl, rfl⟩

structure StmtCrosses (semicolon : Token) (more : List Token) (n m : Nat) : Prop where
  parse? (c : Cursor) : Crosses semicolon more c (Stmt.parse? n) (Stmt.parse? m)
  parseBody (c : Cursor) : Crosses semicolon more c (Stmt.parseBody n) (Stmt.parseBody m)

/-- The branches of an `if`: at the end of the first program no `else` follows, and none does behind
the semicolon. -/
theorem StmtCrosses.branches (h : StmtCrosses semicolon more n m)
    (hsemicolon : semicolon.kind = .symbol .semicolon) (helse : NoElse more)
    (k : Stmt → Option Stmt → Stmt) (c : Cursor) :
    Crosses semicolon more c
      (do
        let x ← Stmt.parseBody n
        if ← accept (.keyword .kwElse) then return some (k x (some (← Stmt.parseBody n)))
        else return some (k x none))
      (do
        let x ← Stmt.parseBody m
        if ← accept (.keyword .kwElse) then return some (k x (some (← Stmt.parseBody m)))
        else return some (k x none)) := by
  intro result d hrun
  obtain ⟨x, c', hx, hrest⟩ := exists_of_bind_ok hrun
  rcases h.parseBody c x c' hx with hx' | ⟨hend, hx'⟩
  · rw [bind_run_of_ok hx']
    refine Crosses.after (Continues.accept hsemicolon (by simp) (by simp) c')
      (fun other d' _ => ?_) result d hrest
    cases other with
    | true => exact (h.parseBody d').map _
    | false => exact (Continues.pure _ d').crosses
  · obtain ⟨previous, rest⟩ := c'
    subst hend
    have hnone : accept (.keyword .kwElse) ⟨previous, []⟩ = .ok false ⟨previous, []⟩ := rfl
    rw [bind_run_of_ok hnone] at hrest
    cases hrest
    right
    rw [bind_run_of_ok hx', bind_run_of_ok (accept_of_ne (helse _))]
    exact ⟨rfl, rfl⟩

/-- A statement that is cut off has no run; every other one ends with a body, an expression or an
optional semicolon. -/
theorem StmtCrosses.parse?_succ (h : StmtCrosses semicolon more n m)
    (hsemicolon : semicolon.kind = .symbol .semicolon) (helse : NoElse more) (hle : n ≤ m)
    (c : Cursor) :
    Crosses semicolon more c (Stmt.parse? (n + 1)) (Stmt.parse? (m + 1)) := by
  by_cases hne : c.rest = []
  · obtain ⟨previous, rest⟩ := c
    subst hne
    intro result d hrun
    obtain ⟨hfuel, rfl, rfl⟩ := parse?_at_end hrun
    obtain ⟨m, rfl⟩ : ∃ k, m = k + 2 := ⟨m - 2, by omega⟩
    exact .inl (parse?_semicolon hsemicolon)
  have hexpr : Continues (semicolon :: more) (Expr.parse? n Level.lowest)
      (Expr.parse? m Level.lowest) :=
    (exprContinues hsemicolon hle).parse? Level.lowest
  have hcondition : Continues (semicolon :: more) (Stmt.parseCondition n) (Stmt.parseCondition m) :=
    continues_parseCondition hsemicolon hle
  have hadvance : ContinuesAt (semicolon :: more) c advance advance := .advance hne
  refine .peek hne ?_
  split
  · exact (Continues.bind (continues_parseBlock hsemicolon hle) (fun _ => .pure _) c).crosses
  · refine .after hadvance fun _ d _ => .after (hcondition d) fun cond d' _ => ?_
    exact h.branches hsemicolon helse (fun x y => .ifElse cond x y c.peek.position) d'
  · refine .after hadvance fun _ d _ => .after (hcondition d) fun subject d' _ => ?_
    refine .after (Continues.accept hsemicolon (by simp) (by simp) d') fun braced e _ => ?_
    split
    · exact (Continues.closed hsemicolon (stmtRefines hle).parseSections .rbrace
        (fun _ => .pure _) e).crosses
    · refine .after (continues_parseSomeLabels hsemicolon hle e) fun labels e' _ => ?_
      exact (h.parseBody e').map _
  · refine .after hadvance fun _ d _ => .after (hcondition d) fun cond d' _ => ?_
    exact (h.parseBody d').map _
  · refine .after hadvance fun _ d _ => .after (Continues.expect _ d) fun _ d _ => ?_
    refine .after (hexpr d) fun _ d _ => .after (Continues.expect _ d) fun _ d _ => ?_
    refine .after (hexpr d) fun _ d _ => .after (Continues.expect _ d) fun _ d _ => ?_
    refine .after (hexpr d) fun _ d _ => .after (Continues.expect _ d) fun _ d _ => ?_
    exact (h.parseBody d).map _
  · refine .after hadvance fun _ d _ => ContinuesAt.crosses ?_
    refine Continues.bind .identifier (fun name => .bind (.expect _) fun _ => ?_) d
    refine .closed hsemicolon (refines_parseParams hle) .rparen fun params => ?_
    refine .bind (.check hsemicolon (by simp) (by simp)) fun braced => ?_
    split
    · exact .bind (continues_parseBlock hsemicolon hle) fun _ => .pure _
    · exact .fail
  · exact .after hadvance fun _ d _ => (crosses_optionalSemicolon hsemicolon d).map _
  · exact .after hadvance fun _ d _ => (crosses_optionalSemicolon hsemicolon d).map _
  · refine .after hadvance fun _ d _ => .after (hexpr d) fun value d' _ => ?_
    exact (crosses_optionalSemicolon hsemicolon d').map _
  · refine .after (hexpr c) fun result d _ => ?_
    cases result with
    | some e => exact (crosses_optionalSemicolon hsemicolon d).map _
    | none => exact (Continues.pure none d).crosses

theorem StmtCrosses.parseBody_succ (h : StmtCrosses semicolon more n m) (c : Cursor) :
    Crosses semicolon more c (Stmt.parseBody (n + 1)) (Stmt.parseBody (m + 1)) := by
  by_cases hne : c.rest = []
  · obtain ⟨previous, rest⟩ := c
    subst hne
    -- the body is missing, so there is no run to follow
    intro s d hrun
    have hrun : Parser.require .statement (Stmt.parse? n) ⟨previous, []⟩ = .ok s d := hrun
    obtain ⟨result, c', hparse, hrest⟩ := exists_of_bind_ok hrun
    obtain ⟨-, rfl, rfl⟩ := parse?_at_end hparse
    cases hrest
  refine .peek hne ?_
  intro s d hrun
  obtain ⟨found, c', haccept, hrest⟩ := exists_of_bind_ok hrun
  obtain ⟨hkind, rfl, rfl⟩ | ⟨hkind, rfl, rfl⟩ := accept_cases haccept
  · cases hrest
    left
    rw [bind_run_of_ok (accept_of_eq (by rwa [Cursor.peek_before hne])), Cursor.advance_before hne]
    rfl
  · rw [bind_run_of_ok (accept_of_ne (by rwa [Cursor.peek_before hne]))]
    exact Crosses.require (h.parse? c') s d hrest

theorem stmtCrosses (hsemicolon : semicolon.kind = .symbol .semicolon) (helse : NoElse more)
    (h : n ≤ m) :
    StmtCrosses semicolon more n m := by
  induction n generalizing m with
  | zero =>
    exact ⟨fun c => (Continues.exhausted c).crosses, fun c => (Continues.exhausted c).crosses⟩
  | succ n ih =>
    obtain ⟨m, rfl⟩ : ∃ k, m = k + 1 := ⟨m - 1, by omega⟩
    have hle : n ≤ m := Nat.le_of_succ_le_succ h
    exact ⟨(ih hle).parse?_succ hsemicolon helse hle, (ih hle).parseBody_succ⟩

end Semicolon
end Boundary

/-! ## 4. Programs

The fuel of the joined program is at least that of the two programs together, so what is left for
the second one is enough. -/

/-- The result of reading statements that come behind others. -/
def ParseResult.prepend (first : Program) : ParseResult Program → ParseResult Program
  | .ok p d => .ok (first ++ p) d
  | .error e => .error e
  | .exhausted => .exhausted

theorem ParseResult.prepend_nil (r : ParseResult Program) : r.prepend [] = r := by
  cases r <;> rfl

theorem ParseResult.prepend_prepend (first second : Program) (r : ParseResult Program) :
    (r.prepend second).prepend first = r.prepend (first ++ second) := by
  cases r with
  | ok p d => exact congrArg (ParseResult.ok · d) (List.append_assoc first second p).symm
  | _ => rfl

theorem ParseResult.prepend_eq_ok {first p : Program} {d : Cursor} {r : ParseResult Program}
    (h : r.prepend first = .ok p d) : ∃ p', r = .ok p' d ∧ p = first ++ p' := by
  cases r with
  | ok p' d' =>
    cases h
    exact ⟨p', rfl, rfl⟩
  | error e => cases h
  | exhausted => cases h

section Programs

variable {n : Nat} {c d : Cursor}

theorem parseMany_some {s : Stmt} (hend : c.atEnd = false) (hs : Stmt.parse? n c = .ok (some s) d) :
    Stmt.parseMany (n + 1) (fun _ => false) c =
      (Stmt.parseMany n (fun _ => false) d).prepend [s] := by
  rw [Stmt.parseMany, bind_run_of_ok (atEnd_run _), bind_run_of_ok (peek_run _)]
  simp only [hend, Bool.or_self, Bool.false_eq_true, if_false]
  rw [bind_run_of_ok hs]
  simp only [bind]
  cases Stmt.parseMany n (fun _ => false) d <;> rfl

theorem parseMany_none (hend : c.atEnd = false) (hnone : Stmt.parse? n c = .ok none d) :
    Stmt.parseMany (n + 1) (fun _ => false) c = Stmt.parseMany n (fun _ => false) d.advance := by
  rw [Stmt.parseMany, bind_run_of_ok (atEnd_run _), bind_run_of_ok (peek_run _)]
  simp only [hend, Bool.or_self, Bool.false_eq_true, if_false]
  rw [bind_run_of_ok hnone]
  rfl

/-- A program that is read has its first phrase read. -/
theorem exists_parse?_of_parseMany {p : Program} (hend : c.atEnd = false)
    (h : Stmt.parseMany (n + 1) (fun _ => false) c = .ok p d) :
    ∃ result c', Stmt.parse? n c = .ok result c' := by
  rw [Stmt.parseMany, bind_run_of_ok (atEnd_run _), bind_run_of_ok (peek_run _)] at h
  simp only [hend, Bool.or_self, Bool.false_eq_true, if_false] at h
  obtain ⟨result, c', hparse, -⟩ := exists_of_bind_ok h
  exact ⟨result, c', hparse⟩

/-- A program at the end of the input has no statements. -/
theorem parseMany_at_end {previous : Option Token} {p : Program}
    (h : Stmt.parseMany n (fun _ => false) ⟨previous, []⟩ = .ok p d) : p = [] := by
  cases n with
  | zero => cases h
  | succ n =>
    rw [parseMany_end fun _ => rfl] at h
    cases h
    rfl

variable {semicolon : Token} {more : List Token}

/-- Reading the statements of the first program, with the semicolon and the second one behind them,
comes down to reading the second one with `spare` fuel left. -/
theorem parseMany_across (hsemicolon : semicolon.kind = .symbol .semicolon) (helse : NoElse more)
    {spare : Nat} (hspare : 3 ≤ spare) {p : Program} (heof : ∀ t ∈ c.rest, t.kind ≠ .eof)
    (h : Stmt.parseMany n (fun _ => false) c = .ok p d) {m : Nat} (hm : n + spare ≤ m) :
    ∃ k, spare ≤ k ∧ Stmt.parseMany m (fun _ => false) (c.before (semicolon :: more)) =
      (Stmt.parseMany k (fun _ => false) ⟨some semicolon, more⟩).prepend p := by
  induction n generalizing c p m with
  | zero => cases h
  | succ n ih =>
    by_cases hrest : c.rest = []
    -- Nothing is left of the first program: the semicolon starts no statement, and is skipped.
    · obtain ⟨previous, rest⟩ := c
      subst hrest
      obtain rfl := parseMany_at_end h
      obtain ⟨k, rfl⟩ : ∃ k, m = k + 4 := ⟨m - 4, by omega⟩
      have hend : Cursor.atEnd ⟨previous, semicolon :: more⟩ = false := by
        rw [Cursor.atEnd, peek_cons, hsemicolon]
        rfl
      have hadvance : Cursor.advance ⟨previous, semicolon :: more⟩ = ⟨some semicolon, more⟩ :=
        Cursor.advance_of_cons (by simp [hsemicolon]) more
      refine ⟨k + 3, by omega, ?_⟩
      rw [ParseResult.prepend_nil, ← hadvance]
      exact parseMany_none hend (parse?_semicolon hsemicolon)
    obtain ⟨m, rfl⟩ : ∃ k, m = k + 1 := ⟨m - 1, by omega⟩
    have hend : c.atEnd = false := by
      obtain ⟨previous, t, rest, rfl⟩ := Cursor.exists_cons_of_rest_ne hrest
      exact decide_eq_false (heof t List.mem_cons_self)
    have hend' : (c.before (semicolon :: more)).atEnd = false := by
      rw [Cursor.atEnd, Cursor.peek_before hrest]
      exact hend
    have hcrosses := (stmtCrosses hsemicolon helse (n := n) (m := m) (by omega)).parse? c
    obtain ⟨result, c', hparse⟩ := exists_parse?_of_parseMany hend h
    have hsuffix := (stmtRefines (Nat.le_refl n)).parse?.suffix hparse
    cases result with
    | some s =>
      rw [parseMany_some hend hparse] at h
      obtain ⟨p', hmore, rfl⟩ := ParseResult.prepend_eq_ok h
      rcases hcrosses _ _ hparse with hparse' | ⟨hlast, hparse'⟩
      · obtain ⟨k, hk, hacross⟩ :=
          ih (fun t ht => heof t (hsuffix.subset ht)) hmore (m := m) (by omega)
        refine ⟨k, hk, ?_⟩
        rw [parseMany_some hend' hparse', hacross, ParseResult.prepend_prepend]
      · obtain ⟨previous, rest⟩ := c'
        subst hlast
        obtain rfl := parseMany_at_end hmore
        exact ⟨m, by omega, parseMany_some hend' hparse'⟩
    -- A token that starts no statement is skipped in both runs.
    | none =>
      obtain ⟨rfl, -⟩ := (Stmt.parse?_absent n c).of_ok hparse rfl
      rw [parseMany_none hend hparse] at h
      rcases hcrosses _ _ hparse with hparse' | ⟨hlast, -⟩
      · obtain ⟨k, hk, hacross⟩ :=
          ih (fun t ht => heof t (c'.suffix_advance.subset ht)) h (m := m) (by omega)
        refine ⟨k, hk, ?_⟩
        rw [parseMany_none hend' hparse', Cursor.advance_before hrest, hacross]
      · exact absurd hlast hrest

end Programs

/-- A semicolon is a boundary between programs.  If tokens parse to a program, and other tokens that
do not start with `else` follow behind a semicolon, then the second ones are read as they are on
their own: their statements come after those of the first program, with their positions, and their
error is the error. -/
theorem parse_across_semicolon {first second : List Token} {semicolon : Token} {p : Program}
    {c : Cursor} (hfirst : ∀ t ∈ first, t.kind ≠ .eof) (hsecond : ∀ t ∈ second, t.kind ≠ .eof)
    (hsemicolon : semicolon.kind = .symbol .semicolon)
    (helse : second.head?.map (·.kind) ≠ some (.keyword .kwElse))
    (hparse : Program.parse first = .ok p c) :
    (∀ p' c', Program.parse second = .ok p' c' →
      ∃ d, Program.parse (first ++ semicolon :: second) = .ok (p ++ p') d) ∧
    ∀ e, Program.parse second = .error e →
      Program.parse (first ++ semicolon :: second) = .error e := by
  have hnone : NoElse second := by
    intro previous
    cases second with
    | nil => simp [Cursor.peek]
    | cons t rest => simpa using helse
  have hfuel : Program.parseFuel first.length + Program.parseFuel second.length ≤
      Program.parseFuel (first ++ semicolon :: second).length := by
    simp only [Program.parseFuel, List.length_append, List.length_cons]
    omega
  have hspare : 3 ≤ Program.parseFuel second.length := by
    simp only [Program.parseFuel]
    omega
  obtain ⟨k, hk, hacross⟩ := parseMany_across hsemicolon hnone hspare hfirst hparse hfuel
  have hjoined : Program.parse (first ++ semicolon :: second) =
      (Stmt.parseMany k (fun _ => false) ⟨some semicolon, second⟩).prepend p := hacross
  cases second with
  | nil =>
    obtain ⟨k, rfl⟩ : ∃ j, k = j + 1 :=
      ⟨k - 1, by simp only [Program.parseFuel, List.length_nil] at hk; omega⟩
    have hempty : Program.parse [] = .ok [] (.ofTokens []) := parseMany_end fun _ => rfl
    rw [hjoined, parseMany_end fun _ => rfl, hempty]
    refine ⟨?_, ?_⟩
    · rintro _ _ ⟨⟩
      exact ⟨_, rfl⟩
    · rintro e ⟨⟩
  | cons t rest =>
    -- The token before the second program does not matter, as it is not at its end.
    have halike : (Cursor.ofTokens (t :: rest)).Alike ⟨some semicolon, t :: rest⟩ :=
      .inr ⟨rfl, decide_eq_false (hsecond t List.mem_cons_self)⟩
    have hsame : (Program.parse (t :: rest)).Alike
        (Stmt.parseMany k (fun _ => false) ⟨some semicolon, t :: rest⟩) :=
      ((stmtRefines hk).parseMany _).alike halike
    rw [hjoined]
    refine ⟨fun p' c' hp' => ?_, fun e he => ?_⟩
    · rw [hp'] at hsame
      obtain ⟨d, hd⟩ := hsame.eq_ok
      rw [hd]
      exact ⟨d, rfl⟩
    · rw [he] at hsame
      rw [hsame.eq_error]
      rfl

def openTokens : List Token :=
  [.ofKind (.keyword .kwIf), .ofKind (.symbol .lparen), .ofKind (.ident "a"),
    .ofKind (.symbol .rparen), .ofKind (.ident "x")]

/-- An `if` at the end of the first program, in front of a return and in front of an error. -/
theorem openTokens_across_semicolon :
    (∃ d, Program.parse
        (openTokens ++ .ofKind (.symbol .semicolon) :: [.ofKind (.keyword .kwReturn)]) =
      .ok [.ifElse (.var "a" .start) (.expr (.var "x" .start)) none .start,
        .returnValue none .start] d) ∧
    Program.parse (openTokens ++ .ofKind (.symbol .semicolon) :: [.ofKind (.symbol .minus)]) =
      .error ⟨.unexpected .expression .endOfInput, ⟨1, 2⟩⟩ := by
  have hparse : Program.parse openTokens =
      .ok [.ifElse (.var "a" .start) (.expr (.var "x" .start)) none .start]
        ⟨some (.ofKind (.ident "x")), []⟩ := by rfl
  have heof : ∀ t ∈ openTokens, t.kind ≠ .eof := by decide
  have hok : Program.parse [.ofKind (.keyword .kwReturn)] =
      .ok [.returnValue none .start] ⟨some (.ofKind (.keyword .kwReturn)), []⟩ := by rfl
  have herror : Program.parse [.ofKind (.symbol .minus)] =
      .error ⟨.unexpected .expression .endOfInput, ⟨1, 2⟩⟩ := by rfl
  exact ⟨(parse_across_semicolon heof (by decide) rfl (by decide) hparse).1 _ _ hok,
    (parse_across_semicolon heof (by decide) rfl (by decide) hparse).2 _ herror⟩

end Scriptlet
