import Scriptlet.Proofs.Cursor
import Scriptlet.Proofs.LiteralGrammar
import Scriptlet.Stmt.Parse

/-!
# What every parser keeps

A discipline says which cursors a parser may stand at, in code and inside a literal, and which
refusals are allowed.  It has to be closed under the single moves of a cursor: over a plain token,
into a literal, from part to part, into and out of an embedded expression, and out of the literal.
`exprKept` and `stmtKept` are the inductions over all parsers of the language, made once for every
discipline.

The parsers are those of §4.2 of the specification.  A token that starts no statement is skipped
there to guarantee termination; a discipline has to allow for it (`skip`).
-/

namespace Scriptlet

/-! ## 1. Runs of a parser

Running out of fuel satisfies everything here.  That there is fuel enough is another matter, and
proved elsewhere. -/

namespace Parser

variable {α β : Type}

/-- A run of a parser from a cursor ends in a result that satisfies `post`, in a refusal that
satisfies `refused`, or for lack of fuel. -/
def Meets (p : Parser α) (c : Cursor) (post : α → Cursor → Prop) (refused : SyntaxError → Prop) :
    Prop :=
  match p c with
  | .ok a d => post a d
  | .error e => refused e
  | .exhausted => True

variable {p : Parser α} {c : Cursor} {post : α → Cursor → Prop} {refused : SyntaxError → Prop}

theorem meets_of_ok {a : α} {d : Cursor} (h : p c = .ok a d) (hpost : post a d) :
    p.Meets c post refused := by
  simpa only [Meets, h] using hpost

theorem Meets.of_ok {a : α} {d : Cursor} (h : p.Meets c post refused) (hp : p c = .ok a d) :
    post a d := by
  simpa only [Meets, hp] using h

theorem Meets.of_error {e : SyntaxError} (h : p.Meets c post refused) (hp : p c = .error e) :
    refused e := by
  simpa only [Meets, hp] using h

/-- The second part of a sequence runs from where the first one ended. -/
theorem Meets.bind {f : α → Parser β} {next : β → Cursor → Prop} (h : p.Meets c post refused)
    (hnext : ∀ a d, p c = .ok a d → post a d → (f a).Meets d next refused) :
    (p >>= f).Meets c next refused := by
  unfold Meets at h ⊢
  simp only [Bind.bind]
  cases hp : p c with
  | ok a d =>
    rw [hp] at h
    exact hnext a d hp h
  | error e =>
    rw [hp] at h
    exact h
  | exhausted => trivial

/-- The first part of a sequence is known to succeed. -/
theorem meets_bind_of_ok {a : α} {d : Cursor} {f : α → Parser β} {next : β → Cursor → Prop}
    (h : p c = .ok a d) (hnext : (f a).Meets d next refused) : (p >>= f).Meets c next refused := by
  unfold Meets at hnext ⊢
  rw [bind_run_of_ok h]
  exact hnext

end Parser

/-! ## 2. Disciplines

What a discipline promises about cursors in code, inside of literals and behind them, and what it
asks of each token that is consumed. -/

def SyntaxFault.wantsEndOfString : SyntaxFault → Bool
  | .unexpected .endOfString _ | .missing .endOfString _ => true
  | _ => false

def SyntaxFault.ofScanner : SyntaxFault → Bool
  | .unexpectedCharacter _ | .unterminatedString | .unknownEscape _ => true
  | _ => false

def TokenKind.continuesString : TokenKind → Bool
  | .strText _ | .interpOpen | .strClose => true
  | _ => false

/-- Where cursors may stand and which refusals are allowed.  Code stands in a context, and a literal
in a frame. -/
structure Discipline where
  Context : Type
  Frame : Type
  /-- The context of statements. -/
  top : Context
  Code : Context → Cursor → Prop
  /-- The cursors inside the literal of a frame. -/
  Text : Frame → Cursor → Prop
  /-- The cursors behind the literal of a frame. -/
  Behind : Frame → Cursor → Prop
  Refused : SyntaxError → Prop
  plain {i : Context} {c : Cursor} : Code i c → c.peek.kind.isPlain = true → Code i c.advance
  skip {c : Cursor} : Code top c → c.peek.kind ≠ .strOpen → c.peek.kind ≠ .eof → Code top c.advance
  strOpen {i : Context} {c : Cursor} : Code i c → c.peek.kind = .strOpen →
    ∃ j, Text j c.advance ∧ ∀ d, Behind j d → Code i d
  strText {j : Frame} {c : Cursor} {text : String} : Text j c → c.peek.kind = .strText text →
    Text j c.advance
  interpOpen {j : Frame} {c : Cursor} : Text j c → c.peek.kind = .interpOpen →
    ∃ i, Code i c.advance ∧ ∀ d, Code i d → d.peek.kind = .interpClose → Text j d.advance
  strClose {j : Frame} {c : Cursor} : Text j c → c.peek.kind = .strClose → Behind j c.advance
  refused {i : Context} {c : Cursor} {fault : SyntaxFault} :
    Code i c → fault.wantsEndOfString = false → fault.ofScanner = false →
    Refused ⟨fault, c.errorPosition⟩
  lost {j : Frame} {c : Cursor} : Text j c → c.peek.kind.continuesString = false →
    Refused ⟨.unexpected .endOfString c.found, c.errorPosition⟩

namespace Discipline
open Scriptlet.Parser

variable {D : Discipline} {i : D.Context} {α β : Type}

/-- A parser that stays in the code of its context. -/
def Keeps (D : Discipline) (i : D.Context) (p : Parser α) : Prop :=
  ∀ c, D.Code i c → p.Meets c (fun _ d => D.Code i d) D.Refused

theorem Keeps.pure (a : α) : D.Keeps i (pure a : Parser α) := fun _ hc => hc

theorem Keeps.exhausted : D.Keeps i (exhausted : Parser α) := fun _ _ => trivial

theorem Keeps.bind {p : Parser α} {f : α → Parser β} (h : D.Keeps i p) (hf : ∀ a, D.Keeps i (f a)) :
    D.Keeps i (p >>= f) :=
  fun c hc => (h c hc).bind fun a d _ hd => hf a d hd

/-- What follows a look at the next token may depend on it. -/
theorem Keeps.peek {f : Token → Parser α}
    (h : ∀ c, D.Code i c → (f c.peek).Meets c (fun _ d => D.Code i d) D.Refused) :
    D.Keeps i (peek >>= f) :=
  fun c hc => meets_bind_of_ok (peek_run c) (h c hc)

theorem Keeps.check (kind : TokenKind) : D.Keeps i (check kind) := fun _ hc => hc

theorem Keeps.atEnd : D.Keeps i atEnd := fun _ hc => hc

theorem Keeps.fail {fault : Cursor → SyntaxFault}
    (h : ∀ c, (fault c).wantsEndOfString = false ∧ (fault c).ofScanner = false) :
    D.Keeps i (fail fault : Parser α) :=
  fun c hc => D.refused hc (h c).1 (h c).2

theorem Keeps.unexpected {wanted : Wanted} (h : wanted ≠ .endOfString) :
    D.Keeps i (unexpected wanted : Parser α) :=
  .fail fun _ => by
    cases wanted with
    | endOfString => exact absurd rfl h
    | _ => exact ⟨rfl, rfl⟩

theorem Keeps.missing {wanted : Wanted} (h : wanted ≠ .endOfString) :
    D.Keeps i (missing wanted : Parser α) :=
  .fail fun _ => by
    cases wanted with
    | endOfString => exact absurd rfl h
    | _ => exact ⟨rfl, rfl⟩

/-- A plain token that is next is consumed. -/
theorem meets_advance {c : Cursor} {p : Parser α} (hc : D.Code i c)
    (hplain : c.peek.kind.isPlain = true) (h : D.Keeps i p) :
    (advance >>= fun _ => p).Meets c (fun _ d => D.Code i d) D.Refused :=
  meets_bind_of_ok (p := advance) rfl (h _ (D.plain hc hplain))

theorem Keeps.accept {kind : TokenKind} (h : kind.isPlain = true) : D.Keeps i (accept kind) := by
  intro c hc
  by_cases hkind : c.peek.kind = kind
  · refine meets_of_ok (accept_of_eq hkind) (D.plain hc ?_)
    rw [hkind]
    exact h
  · exact meets_of_ok (accept_of_ne hkind) hc

theorem Keeps.expect (s : Symbol) : D.Keeps i (expect s) := by
  refine .bind (.accept rfl) fun found => ?_
  cases found with
  | true => exact .pure ()
  | false => exact .missing (by simp)

theorem Keeps.identifier : D.Keeps i identifier := by
  refine .peek fun c hc => ?_
  split
  · next name hkind => exact meets_advance hc (by rw [hkind]; rfl) (.pure name)
  · exact Keeps.missing (by simp) c hc

theorem Keeps.require {wanted : Wanted} {p : Parser (Option α)} (h : wanted ≠ .endOfString)
    (hp : D.Keeps i p) :
    D.Keeps i (require wanted p) := by
  refine .bind hp fun result => ?_
  cases result with
  | some a => exact .pure a
  | none => exact .unexpected h

/-! ## 3. Expressions

Only the parser of the parts of a literal ever is inside of one. -/

/-- A name and its colon are two plain tokens. -/
theorem Keeps.argumentName : D.Keeps i Expr.argumentName := by
  refine .peek fun c hc => meets_bind_of_ok (p := Parser.peekSecond) rfl ?_
  split
  · next name hkind hsecond =>
    have hname : c.peek.kind.isPlain = true := by rw [hkind]; rfl
    have hcolon := peek_advance (by rw [hkind]; simp) hsecond
    refine meets_bind_of_ok (p := Parser.advance) rfl ?_
    exact meets_advance (D.plain hc hname) (by rw [hcolon]; rfl) (.pure _)
  · exact hc

/-- Operators are symbols. -/
theorem isPlain_of_unaryOf? {kind : TokenKind} {op : UnaryOp} (h : Expr.unaryOf? kind = some op) :
    kind.isPlain = true := by
  cases kind with
  | symbol s => rfl
  | _ => cases h

theorem isPlain_of_continuation {kind : TokenKind} {k : Expr.Continuation}
    (h : Expr.Continuation.ofKind? kind = some k) : kind.isPlain = true := by
  cases kind with
  | symbol s => rfl
  | _ => cases h

structure ExprKept (D : Discipline) (n : Nat) : Prop where
  parse? (i : D.Context) (level : Nat) : D.Keeps i (Expr.parse? n level)
  operand? (i : D.Context) : D.Keeps i (Expr.operand? n)
  extend (i : D.Context) (level : Nat) (left : Expr) : D.Keeps i (Expr.extend n level left)
  continueWith (i : D.Context) (left : Expr) (k : Expr.Continuation) :
    D.Keeps i (Expr.continueWith n left k)
  listItems (i : D.Context) : D.Keeps i (Expr.listItems n)
  arguments (i : D.Context) : D.Keeps i (Expr.arguments n)
  stringParts {j : D.Frame} {c : Cursor} : D.Text j c →
    (Expr.stringParts n).Meets c (fun _ d => D.Behind j d) D.Refused

namespace ExprKept

variable {n : Nat}

theorem expression (h : D.ExprKept n) (i : D.Context) (level : Nat) :
    D.Keeps i (require .expression (Expr.parse? n level)) :=
  .require (by simp) (h.parse? i level)

theorem parse?_succ (h : D.ExprKept n) (level : Nat) : D.Keeps i (Expr.parse? (n + 1) level) := by
  refine .bind (h.operand? i) fun result => ?_
  cases result with
  | some left => exact .bind (h.extend i level left) fun _ => .pure _
  | none => exact .pure none

/-- Only the opening quote leaves the code, and the literal that it opens leads back. -/
theorem operand?_succ (h : D.ExprKept n) : D.Keeps i (Expr.operand? (n + 1)) := by
  refine .peek fun c hc => ?_
  split
  · next op hop =>
    refine meets_advance hc (isPlain_of_unaryOf? hop) (.bind (h.expression i _) fun _ => .pure _)
  generalize hkind : c.peek.kind = kind
  cases kind with
  | int _ | float _ | bool _ | ident _ => exact meets_advance hc (by rw [hkind]; rfl) (.pure _)
  | strOpen =>
    obtain ⟨j, htext, hback⟩ := D.strOpen hc hkind
    refine meets_bind_of_ok (p := Parser.advance) rfl ?_
    exact (h.stringParts htext).bind fun _ d _ hd => hback d hd
  | symbol s =>
    cases s with
    | lparen =>
      refine meets_advance hc (by rw [hkind]; rfl) ?_
      exact .bind (h.expression i _) fun _ => .bind (.expect _) fun _ => .pure _
    | lbracket =>
      refine meets_advance hc (by rw [hkind]; rfl) ?_
      exact .bind (h.listItems i) fun _ => .bind (.expect _) fun _ => .pure _
    | _ => exact hc
  | _ => exact hc

/-- An operator is a plain token, and what continues the expression behind it is code again. -/
theorem extend_succ (h : D.ExprKept n) (level : Nat) (left : Expr) :
    D.Keeps i (Expr.extend (n + 1) level left) := by
  refine .peek fun c hc => ?_
  split
  · next k hk =>
    split
    · refine meets_advance hc (isPlain_of_continuation hk) ?_
      exact .bind (h.continueWith i left k) fun longer => h.extend i level longer
    · exact hc
  · exact hc

theorem continueWith_succ (h : D.ExprKept n) (left : Expr) (k : Expr.Continuation) :
    D.Keeps i (Expr.continueWith (n + 1) left k) := by
  cases k with
  | binary op => exact .bind (h.expression i _) fun _ => .pure _
  | ternary =>
    exact .bind (h.expression i _) fun _ => .bind (.expect _) fun _ => .bind (h.expression i _)
      fun _ => .pure _
  | call => exact .bind (h.arguments i) fun _ => .bind (.expect _) fun _ => .pure _
  | subscript => exact .bind (h.expression i _) fun _ => .bind (.expect _) fun _ => .pure _
  | step op => exact .pure _

theorem listItems_succ (h : D.ExprKept n) : D.Keeps i (Expr.listItems (n + 1)) := by
  refine .bind (.check _) fun closed => .bind .atEnd fun ended => ?_
  split
  · exact .pure _
  · refine .bind (h.expression i _) fun item => .bind (.accept rfl) fun more => ?_
    split
    · exact .bind (h.listItems i) fun _ => .pure _
    · exact .pure _

theorem arguments_succ (h : D.ExprKept n) : D.Keeps i (Expr.arguments (n + 1)) := by
  refine .bind (.check _) fun closed => .bind .atEnd fun ended => ?_
  split
  · exact .pure _
  · refine .bind .argumentName fun name => .bind (h.expression i _) fun value => .bind (.accept rfl)
      fun more => ?_
    split
    · exact .bind (h.arguments i) fun _ => .pure _
    · exact .pure _

theorem stringParts_succ (h : D.ExprKept n) {j : D.Frame} {c : Cursor} (hc : D.Text j c) :
    (Expr.stringParts (n + 1)).Meets c (fun _ d => D.Behind j d) D.Refused := by
  refine meets_bind_of_ok (peek_run c) ?_
  split
  · next text hkind =>
    refine meets_bind_of_ok (p := Parser.advance) rfl ?_
    exact (h.stringParts (D.strText hc hkind)).bind fun _ _ _ hd => hd
  · next hkind =>
    -- the expression runs in a context of its own, which its closing brace leaves
    obtain ⟨i, hcode, hback⟩ := D.interpOpen hc hkind
    refine meets_bind_of_ok (p := Parser.advance) rfl ?_
    refine (h.expression i _ _ hcode).bind fun e d _ hd => ?_
    by_cases hclose : d.peek.kind = .interpClose
    · refine meets_bind_of_ok (accept_of_eq hclose) ?_
      exact (h.stringParts (hback d hd hclose)).bind fun _ _ _ hd => hd
    · refine meets_bind_of_ok (accept_of_ne hclose) ?_
      exact D.refused hd rfl rfl
  · next hkind => exact meets_bind_of_ok (p := Parser.advance) rfl (D.strClose hc hkind)
  · next htext hopen hclose =>
    have hother : c.peek.kind.continuesString = false := by
      cases hkind : c.peek.kind with
      | strText text => exact (htext text hkind).elim
      | interpOpen => exact (hopen hkind).elim
      | strClose => exact (hclose hkind).elim
      | _ => rfl
    exact D.lost hc hother

end ExprKept

/-- The induction on fuel over all parsers of expressions. -/
theorem exprKept (D : Discipline) (n : Nat) : D.ExprKept n := by
  induction n with
  | zero =>
    exact ⟨fun _ _ => .exhausted, fun _ => .exhausted, fun _ _ _ => .exhausted,
      fun _ _ _ => .exhausted, fun _ => .exhausted, fun _ => .exhausted, fun _ => trivial⟩
  | succ n ih =>
    exact ⟨fun _ => ih.parse?_succ, fun _ => ih.operand?_succ, fun _ => ih.extend_succ,
      fun _ => ih.continueWith_succ, fun _ => ih.listItems_succ,
      fun _ => ih.arguments_succ, ih.stringParts_succ⟩

/-- In every context, an expression is read within its context. -/
theorem keeps_expression (n : Nat) (level : Nat) : D.Keeps i (Expr.parse? n level) :=
  (exprKept D n).parse? i level

end Discipline

/-! ## 4. Absent phrases

A parser that finds nothing to read has read nothing.  This is what makes skipping a token safe. -/

namespace Parser

variable {α β : Type}

/-- A parser that never finds its phrase absent. -/
def Present (p : Parser (Option α)) : Prop := ∀ c, p.Meets c (fun a _ => a ≠ none) (fun _ => True)

theorem Present.some (a : α) : Present (pure (some a)) := by
  intro c h
  cases h

theorem Present.fail (fault : Cursor → SyntaxFault) : Present (fail fault : Parser (Option α)) :=
  fun _ => trivial

theorem meets_true (p : Parser α) (c : Cursor) : p.Meets c (fun _ _ => True) (fun _ => True) := by
  unfold Meets
  split <;> trivial

/-- What comes before does not matter: the last part returns a phrase. -/
theorem Present.bind {p : Parser β} {f : β → Parser (Option α)} (h : ∀ b, Present (f b)) :
    Present (p >>= f) :=
  fun c => (meets_true p c).bind fun b d _ _ => h b d

/-- So the case of an absent phrase needs no proof. -/
theorem Present.meets {p : Parser (Option α)} (h : Present p) (c : Cursor) (post : Cursor → Prop) :
    p.Meets c (fun a d => a = none → post d) (fun _ => True) := by
  have hc := h c
  unfold Meets at hc ⊢
  split
  · next a d hp =>
    rw [hp] at hc
    exact fun hnone => absurd hnone hc
  · trivial
  · trivial

end Parser

open Scriptlet.Parser

/-- Where no operand starts the cursor stays, and no literal is next. -/
theorem Expr.operand?_absent (n : Nat) (c : Cursor) :
    (Expr.operand? n).Meets c (fun a d => a = none → d = c ∧ c.peek.kind ≠ .strOpen)
      (fun _ => True) := by
  cases n with
  | zero => trivial
  | succ n =>
    refine meets_bind_of_ok (peek_run c) ?_
    split
    · exact Present.meets (.bind fun _ => .bind fun _ => .some _) c _
    generalize hkind : c.peek.kind = kind
    cases kind with
    | int _ | float _ | bool _ | ident _ => exact Present.meets (.bind fun _ => .some _) c _
    | strOpen => exact Present.meets (.bind fun _ => .bind fun _ => .some _) c _
    | symbol s =>
      cases s with
      | lparen | lbracket =>
        exact Present.meets (.bind fun _ => .bind fun _ => .bind fun _ => .some _) c _
      | _ => exact fun _ => ⟨rfl, by simp⟩
    | _ => exact fun _ => ⟨rfl, by simp⟩

/-- Without an operand there is nothing to extend. -/
theorem Expr.parse?_absent (n level : Nat) (c : Cursor) :
    (Expr.parse? n level).Meets c (fun a d => a = none → d = c ∧ c.peek.kind ≠ .strOpen)
      (fun _ => True) := by
  cases n with
  | zero => trivial
  | succ n =>
    refine (Expr.operand?_absent n c).bind fun result d _ hd => ?_
    cases result with
    | some left => exact Present.meets (.bind fun _ => .some _) d _
    | none => exact hd

/-- Where no statement starts the cursor stays, and no literal is next. -/
theorem Stmt.parse?_absent (n : Nat) (c : Cursor) :
    (Stmt.parse? n).Meets c (fun a d => a = none → d = c ∧ c.peek.kind ≠ .strOpen)
      (fun _ => True) := by
  cases n with
  | zero => trivial
  | succ n =>
    refine meets_bind_of_ok (peek_run c) ?_
    split
    · exact Present.meets (.bind fun _ => .some _) c _
    · refine Present.meets (.bind fun _ => .bind fun _ => .bind fun _ => .bind fun other => ?_) c _
      split
      · exact .bind fun _ => .some _
      · exact .some _
    · refine Present.meets (.bind fun _ => .bind fun _ => .bind fun braced => ?_) c _
      split
      · exact .bind fun _ => .bind fun _ => .some _
      · exact .bind fun _ => .bind fun _ => .some _
    · exact Present.meets (.bind fun _ => .bind fun _ => .bind fun _ => .some _) c _
    · refine Present.meets (.bind fun _ => .bind fun _ => .bind fun _ => .bind fun _ => ?_) c _
      exact .bind fun _ => .bind fun _ => .bind fun _ => .bind fun _ => .bind fun _ => .some _
    · refine Present.meets (.bind fun _ => .bind fun _ => .bind fun _ => .bind fun _ => ?_) c _
      refine .bind fun _ => .bind fun body => ?_
      split
      · exact .bind fun _ => .some _
      · exact .fail _
    · exact Present.meets (.bind fun _ => .bind fun _ => .some _) c _
    · exact Present.meets (.bind fun _ => .bind fun _ => .some _) c _
    · exact Present.meets (.bind fun _ => .bind fun _ => .bind fun _ => .some _) c _
    · refine (Expr.parse?_absent n _ c).bind fun result d _ hd => ?_
      cases result with
      | some e => exact Present.meets (.bind fun _ => .some _) d _
      | none => exact fun _ => hd rfl

/-! ## 5. Statements

No statement has a literal of its own, so all that is to do is to pass the promises on. -/

namespace Discipline

variable {D : Discipline} {i : D.Context}

theorem keeps_parseCondition (n : Nat) : D.Keeps i (Stmt.parseCondition n) :=
  .bind (.expect _) fun _ => .bind (.require (by simp) (keeps_expression n _)) fun _ =>
    .bind (.expect _) fun _ => .pure _

theorem keeps_optionalSemicolon : D.Keeps i Stmt.optionalSemicolon :=
  .bind (.accept rfl) fun _ => .pure _

theorem keeps_parseLabels (n : Nat) : D.Keeps i (Stmt.parseLabels n) := by
  induction n with
  | zero => exact .exhausted
  | succ n ih =>
    refine .bind (.accept rfl) fun isCase => ?_
    split
    · refine .bind (.require (by simp) (keeps_expression n _)) fun _ => .bind (.expect _) fun _ =>
        .bind ih fun _ => ?_
      exact .pure _
    · refine .bind (.accept rfl) fun isDefault => ?_
      split
      · exact .bind (.expect _) fun _ => .bind ih fun _ => .pure _
      · exact .pure _

theorem keeps_parseSomeLabels (n : Nat) : D.Keeps i (Stmt.parseSomeLabels n) := by
  refine .bind (keeps_parseLabels n) fun labels => ?_
  split
  · exact .unexpected (by simp)
  · exact .pure _

theorem keeps_paramDefault (n : Nat) (name : String) : D.Keeps i (Stmt.paramDefault n name) := by
  refine .bind (.accept rfl) fun given => ?_
  split
  · refine .bind (keeps_expression n _) fun value => ?_
    split
    · exact .pure _
    · exact .fail fun _ => ⟨rfl, rfl⟩
  · exact .pure _

theorem keeps_parseParams (n : Nat) : D.Keeps i (Stmt.parseParams n) := by
  induction n with
  | zero => exact .exhausted
  | succ n ih =>
    refine .bind (.check _) fun closed => .bind .atEnd fun ended => ?_
    split
    · exact .pure _
    · refine .peek fun c hc => ?_
      refine Keeps.bind .identifier (fun name => .bind (keeps_paramDefault n name) fun _ =>
        .bind (.accept rfl) fun more => ?_) c hc
      split
      · exact .bind ih fun _ => .pure _
      · exact .pure _

structure StmtKept (D : Discipline) (n : Nat) : Prop where
  parseMany (stop : TokenKind → Bool) : D.Keeps D.top (Stmt.parseMany n stop)
  parse? : D.Keeps D.top (Stmt.parse? n)
  parseBody : D.Keeps D.top (Stmt.parseBody n)
  parseBlock : D.Keeps D.top (Stmt.parseBlock n)
  parseSections : D.Keeps D.top (Stmt.parseSections n)

namespace StmtKept

variable {n : Nat}

/-- A statement, or a token that starts none. -/
theorem parseMany_succ (h : D.StmtKept n) (stop : TokenKind → Bool) :
    D.Keeps D.top (Stmt.parseMany (n + 1) stop) := by
  intro c hc
  refine meets_bind_of_ok (atEnd_run c) (meets_bind_of_ok (peek_run c) ?_)
  split
  · exact hc
  · next hmore =>
    refine (h.parse? c hc).bind fun result d hrun hd => ?_
    cases result with
    | some stmt => exact Keeps.bind (h.parseMany stop) (fun _ => .pure _) d hd
    | none =>
      -- the token that starts no statement is skipped; it is not the opening quote of a literal
      obtain ⟨rfl, hopen⟩ := (Stmt.parse?_absent n c).of_ok hrun rfl
      have hend : d.peek.kind ≠ .eof := by
        intro heof
        simp [Cursor.atEnd, heof] at hmore
      exact meets_bind_of_ok (p := Parser.advance) rfl (h.parseMany stop _ (D.skip hc hopen hend))

/-- One case for each keyword; each of them is a plain token. -/
theorem parse?_succ (h : D.StmtKept n) : D.Keeps D.top (Stmt.parse? (n + 1)) := by
  refine .peek fun c hc => ?_
  split
  · exact Keeps.bind h.parseBlock (fun _ => .pure _) c hc
  · next hkind =>
    refine meets_advance hc (by rw [hkind]; rfl) ?_
    refine .bind (keeps_parseCondition n) fun _ => .bind h.parseBody fun _ => .bind (.accept rfl)
      fun other => ?_
    split
    · exact .bind h.parseBody fun _ => .pure _
    · exact .pure _
  · next hkind =>
    refine meets_advance hc (by rw [hkind]; rfl) ?_
    refine .bind (keeps_parseCondition n) fun _ => .bind (.accept rfl) fun braced => ?_
    split
    · exact .bind h.parseSections fun _ => .bind (.expect _) fun _ => .pure _
    · exact .bind (keeps_parseSomeLabels n) fun _ => .bind h.parseBody fun _ => .pure _
  · next hkind =>
    refine meets_advance hc (by rw [hkind]; rfl) ?_
    exact .bind (keeps_parseCondition n) fun _ => .bind h.parseBody fun _ => .pure _
  · next hkind =>
    refine meets_advance hc (by rw [hkind]; rfl) (.bind (.expect _) fun _ => ?_)
    refine .bind (keeps_expression n _) fun _ => .bind (.expect _) fun _ => ?_
    refine .bind (keeps_expression n _) fun _ => .bind (.expect _) fun _ => ?_
    exact .bind (keeps_expression n _) fun _ => .bind (.expect _) fun _ => .bind h.parseBody
      fun _ => .pure _
  · next hkind =>
    refine meets_advance hc (by rw [hkind]; rfl) (.bind .identifier fun name => .bind (.expect _)
      fun _ => ?_)
    refine .bind (keeps_parseParams n) fun _ => .bind (.expect _) fun _ => .bind (.check _)
      fun body => ?_
    split
    · exact .bind h.parseBlock fun _ => .pure _
    · exact .fail fun _ => ⟨rfl, rfl⟩
  · next hkind =>
    exact meets_advance hc (by rw [hkind]; rfl) (.bind keeps_optionalSemicolon fun _ => .pure _)
  · next hkind =>
    exact meets_advance hc (by rw [hkind]; rfl) (.bind keeps_optionalSemicolon fun _ => .pure _)
  · next hkind =>
    refine meets_advance hc (by rw [hkind]; rfl) (.bind (keeps_expression n _) fun _ => ?_)
    exact .bind keeps_optionalSemicolon fun _ => .pure _
  · refine Keeps.bind (keeps_expression n _) (fun result => ?_) c hc
    cases result with
    | some e => exact .bind keeps_optionalSemicolon fun _ => .pure _
    | none => exact .pure none

theorem parseBody_succ (h : D.StmtKept n) : D.Keeps D.top (Stmt.parseBody (n + 1)) := by
  refine .peek fun c hc => Keeps.bind (.accept rfl) (fun empty => ?_) c hc
  split
  · exact .pure _
  · exact .require (by simp) h.parse?

theorem parseBlock_succ (h : D.StmtKept n) : D.Keeps D.top (Stmt.parseBlock (n + 1)) :=
  .bind (.expect _) fun _ => .bind (h.parseMany _) fun _ => .bind (.expect _) fun _ => .pure _

theorem parseSections_succ (h : D.StmtKept n) : D.Keeps D.top (Stmt.parseSections (n + 1)) := by
  refine .bind (.check _) fun closed => .bind .atEnd fun ended => ?_
  split
  · exact .pure _
  · refine .bind (keeps_parseSomeLabels n) fun _ => .bind (h.parseMany _) fun _ =>
      .bind h.parseSections fun _ => ?_
    exact .pure _

end StmtKept

/-- The induction on fuel over all parsers of statements. -/
theorem stmtKept (D : Discipline) (n : Nat) : D.StmtKept n := by
  induction n with
  | zero => exact ⟨fun _ => .exhausted, .exhausted, .exhausted, .exhausted, .exhausted⟩
  | succ n ih =>
    exact ⟨ih.parseMany_succ, ih.parse?_succ, ih.parseBody_succ, ih.parseBlock_succ,
      ih.parseSections_succ⟩

end Discipline
end Scriptlet
