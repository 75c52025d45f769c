import Scriptlet.Proofs.ExprRoundTrip
import Scriptlet.Proofs.ParsedTrees
import Scriptlet.Proofs.StmtSpelling

/-!
# Parsing a program inverts writing it

Statements follow each other without a mark between them, so each one has to end where it was
written to end whatever comes next.  Only an `else` can be taken by a statement in front of it, and
the spelling rules that out; all else that may follow is left alone because a simple statement ends
in its own semicolon.  The induction is on the number of tokens, like that for expressions, with one
lemma for each form of statements.

The forms of statements are those of §4.2 of the specification.
-/

namespace Scriptlet
open Scriptlet.Parser

/-! ## 1. First tokens

A list of statements goes on where a statement can start, so what may start one must not end the
list. -/

def startsStmt (kind : TokenKind) : Bool :=
  startsOperand kind ||
    match kind with
    | .symbol .lbrace => true
    | .keyword .kwIf | .keyword .kwSwitch | .keyword .kwWhile | .keyword .kwFor | .keyword .kwFn =>
      true
    | .keyword .kwBreak | .keyword .kwContinue | .keyword .kwReturn => true
    | _ => false

theorem SpellsStmt.starts {s : Stmt} {ts : List Token} (h : SpellsStmt s ts) :
    ∃ t us, ts = t :: us ∧ startsStmt t.kind = true := by
  cases h with
  | expr he _ =>
    obtain ⟨t, us, rfl, ht⟩ := he.startsPhrase
    exact ⟨t, us ++ _, rfl, by simp [startsStmt, ht]⟩
  | block ht _ _ => exact ⟨_, _, rfl, by rw [ht]; rfl⟩
  | ifThen ht _ _ => exact ⟨_, _, rfl, by rw [ht]; rfl⟩
  | ifElse ht _ _ _ _ _ => exact ⟨_, _, rfl, by rw [ht]; rfl⟩
  | switch ht _ _ _ _ => exact ⟨_, _, rfl, by rw [ht]; rfl⟩
  | whileLoop ht _ _ => exact ⟨_, _, rfl, by rw [ht]; rfl⟩
  | forLoop ht _ _ _ _ _ _ _ _ => exact ⟨_, _, rfl, by rw [ht]; rfl⟩
  | breakLoop ht _ => exact ⟨_, _, rfl, by rw [ht]; rfl⟩
  | continueLoop ht _ => exact ⟨_, _, rfl, by rw [ht]; rfl⟩
  | returnValue ht _ _ => exact ⟨_, _, rfl, by rw [ht]; rfl⟩
  | declare ht _ _ _ _ _ _ _ => exact ⟨_, _, rfl, by rw [ht]; rfl⟩

/-- The first token of a statement is of no other kind than those that start one. -/
theorem SpellsStmt.peek {s : Stmt} {ts : List Token} (h : SpellsStmt s ts) (previous : Option Token)
    (rest : List Token) {kind : TokenKind} (hkind : startsStmt kind = false) :
    (Cursor.peek ⟨previous, ts ++ rest⟩).kind ≠ kind := by
  obtain ⟨t, us, rfl, ht⟩ := h.starts
  intro heq
  rw [List.cons_append, peek_cons] at heq
  rw [heq, hkind] at ht
  cases ht

def NoElse (rest : List Token) : Prop :=
  ∀ previous, (Cursor.peek ⟨previous, rest⟩).kind ≠ .keyword .kwElse

theorem NoElse.joined {body : List Stmt} {ts rest : List Token} (h : Joined SpellsStmt body ts)
    (hrest : NoElse rest) : NoElse (ts ++ rest) := by
  intro previous
  cases h with
  | nil => exact hrest previous
  | cons hs _ =>
    rw [List.append_assoc]
    exact hs.peek previous _ rfl

/-- The statements of a list end here, at the end of the input or at a token for which `stop`
holds. -/
def EndsMany (stop : TokenKind → Bool) (rest : List Token) : Prop :=
  ∀ previous, (Cursor.atEnd ⟨previous, rest⟩ || stop (Cursor.peek ⟨previous, rest⟩).kind) = true

/-- No statement is ended by its own first token, nor at an `else`. -/
def Passes (stop : TokenKind → Bool) : Prop :=
  ∀ kind, startsStmt kind = true ∨ kind = .keyword .kwElse → stop kind = false

theorem endsMany_cons {stop : TokenKind → Bool} {t : Token} {kind : TokenKind} (h : t.kind = kind)
    (hstop : stop kind = true) (rest : List Token) : EndsMany stop (t :: rest) := by
  intro previous
  rw [peek_cons, h, hstop, Bool.or_true]

theorem EndsMany.noElse {stop : TokenKind → Bool} {rest : List Token} (h : EndsMany stop rest)
    (hstop : Passes stop) : NoElse rest := by
  intro previous helse
  have hend := h previous
  rw [Cursor.atEnd, helse, hstop _ (.inr rfl)] at hend
  cases hend

theorem passes_endsBlock : Passes Stmt.endsBlock := by
  rintro kind (hkind | rfl)
  · refine decide_eq_false fun heq => ?_
    rw [heq] at hkind
    cases hkind
  · rfl

theorem passes_endsSection : Passes Stmt.endsSection := by
  rintro kind (hkind | rfl)
  · rw [Stmt.endsSection, Bool.or_eq_false_iff, Bool.or_eq_false_iff]
    refine ⟨⟨?_, ?_⟩, ?_⟩ <;>
    · refine decide_eq_false fun heq => ?_
      rw [heq] at hkind
      cases hkind
  · rfl

/-! ## 2. Expressions in statements

An expression in a statement ends in front of a semicolon, a parenthesis, a colon or a comma, none
of which continues it. -/

theorem Spells.readsBack {e : Expr} {ts rest : List Token} (h : Spells Level.lowest e ts)
    (hrest : continuation? rest = none) : ReadsBack Level.lowest e ts rest :=
  (climbUpTo ts.length).readBack (Nat.le_refl _) h hrest

/-- A default value is read back in front of a comma or a parenthesis. -/
theorem Spells.readsBack_assignment {e : Expr} {ts rest : List Token}
    (h : Spells Level.assignment e ts) (hrest : continuation? rest = none) :
    ReadsBack Level.assignment e ts rest := by
  refine (climbUpTo ts.length (Nat.le_refl _) h opens_assignment (closes_of_none hrest)).readsBack
    fun k hk => ?_
  rw [hrest] at hk
  cases hk

theorem operand?_none {n : Nat} {c : Cursor} (h : startsOperand c.peek.kind = false) :
    Expr.operand? (n + 1) c = .ok none c := by
  refine (bind_run_of_ok (peek_run c) _).trans ?_
  generalize c.peek.kind = kind at h
  cases kind with
  | symbol s => cases s <;> first | rfl | cases h
  | _ => first | rfl | cases h

/-- Where no operand starts no expression does. -/
theorem parse?_none {n level : Nat} {c : Cursor} (h : startsOperand c.peek.kind = false) :
    Expr.parse? (n + 2) level c = .ok none c := by
  -- Without an operand there is nothing to extend.
  rw [Expr.parse?, bind_run_of_ok (operand?_none h)]
  rfl

/-- A phrase that may be left out is read back in front of a token that neither starts nor continues
one. -/
theorem Optional.readsBack {e : Option Expr} {ts : List Token}
    (h : Optional (Spells Level.lowest) e ts) {w : Token} {kind : TokenKind} (hw : w.kind = kind)
    (hstart : startsOperand kind = false) (hcont : Expr.Continuation.ofKind? kind = none)
    (rest : List Token) (previous : Option Token) {n : Nat} (hn : 4 * ts.length + 1 < n) :
    ∃ e' last, e'.map Expr.unplaced = e.map Expr.unplaced ∧
      Expr.parse? n Level.lowest ⟨previous, ts ++ w :: rest⟩ = .ok e' ⟨last, w :: rest⟩ := by
  cases h with
  | absent =>
    obtain ⟨n, rfl⟩ : ∃ m, n = m + 2 := ⟨n - 2, by omega⟩
    have hnone : startsOperand (Cursor.peek ⟨previous, w :: rest⟩).kind = false := by
      rw [peek_cons, hw, hstart]
    exact ⟨none, previous, rfl, parse?_none hnone⟩
  | present he =>
    have hrest : continuation? (w :: rest) = none := by rw [continuation?_cons hw, hcont]
    obtain ⟨e', last, heq, hparse⟩ := he.readsBack hrest previous n hn
    exact ⟨some e', last, by rw [Option.map_some, Option.map_some, heq], hparse⟩

theorem SpellsCondition.readsBack {e : Expr} {ts : List Token} (h : SpellsCondition e ts)
    (rest : List Token) (previous : Option Token) {n : Nat} (hn : 4 * ts.length ≤ n) :
    ∃ e' last, e'.unplaced = e.unplaced ∧
      Stmt.parseCondition n ⟨previous, ts ++ rest⟩ = .ok e' ⟨last, rest⟩ := by
  obtain @⟨left, right, ts, hleft, he, hright⟩ := h
  simp only [List.length_cons, List.length_append, List.length_nil] at hn
  simp only [List.cons_append, List.append_assoc, List.nil_append]
  obtain ⟨e', last, heq, hparse⟩ :=
    he.readsBack (continuation?_cons hright rest) (some left) n (by omega)
  refine ⟨e', some right, heq, ?_⟩
  rw [Stmt.parseCondition, bind_run_of_ok (expect_cons _ _ hleft), Stmt.parseExpression,
    bind_run_of_ok (require_of_some hparse), bind_run_of_ok (expect_cons _ _ hright)]
  rfl

/-! ## 3. Labels and parameters

Both are lists that are read until something else is next, so each one is an induction on its
spelling. -/

def NoLabel (rest : List Token) : Prop :=
  ∀ previous, (Cursor.peek ⟨previous, rest⟩).kind ≠ .keyword .kwCase ∧
    (Cursor.peek ⟨previous, rest⟩).kind ≠ .keyword .kwDefault

theorem parseLabels_none {n : Nat} {rest : List Token} (h : NoLabel rest)
    (previous : Option Token) :
    Stmt.parseLabels (n + 1) ⟨previous, rest⟩ = .ok [] ⟨previous, rest⟩ := by
  rw [Stmt.parseLabels, bind_run_of_ok (accept_of_ne (h previous).1)]
  exact bind_run_of_ok (accept_of_ne (h previous).2) _

theorem Joined.parseLabels {labels : List Label} {ts : List Token}
    (h : Joined SpellsLabel labels ts) :
    ∀ {rest : List Token} (previous : Option Token) {n : Nat}, NoLabel rest → 4 * ts.length < n →
      ∃ labels' last, labels'.map Label.unplaced = labels.map Label.unplaced ∧
        Stmt.parseLabels n ⟨previous, ts ++ rest⟩ = .ok labels' ⟨last, rest⟩ := by
  induction h with
  | nil =>
    intro rest previous n hrest hn
    obtain ⟨n, rfl⟩ := Nat.exists_eq_add_of_lt hn
    exact ⟨[], previous, rfl, parseLabels_none hrest previous⟩
  | @cons label labels ts us hlabel _ ih =>
    intro rest previous n hrest hn
    obtain ⟨n, rfl⟩ : ∃ m, n = m + 1 := ⟨n - 1, by omega⟩
    simp only [List.length_append] at hn
    cases hlabel with
    -- `case e :` and the labels after it
    | @case e t colon vs ht he hcolon =>
      simp only [List.length_cons, List.length_append, List.length_nil] at hn
      obtain ⟨others, last, hothers, hmore⟩ := ih (some colon) (n := n) hrest (by omega)
      simp only [List.cons_append, List.append_assoc, List.nil_append]
      obtain ⟨e', last', heq, hparse⟩ :=
        he.readsBack (continuation?_cons hcolon _) (some t) n (by omega)
      refine ⟨.case e' :: others, last, by simp only [List.map_cons, Label.unplaced, heq, hothers],
        ?_⟩
      rw [Stmt.parseLabels, bind_run_of_ok (accept_cons _ _ ht (by simp))]
      simp only [if_true]
      rw [Stmt.parseExpression, bind_run_of_ok (require_of_some hparse),
        bind_run_of_ok (expect_cons _ _ hcolon), bind_run_of_ok hmore]
      rfl
    | @default t colon ht hcolon =>
      simp only [List.length_cons, List.length_nil] at hn
      obtain ⟨others, last, hothers, hmore⟩ := ih (some colon) (n := n) hrest (by omega)
      refine ⟨.default :: others, last, by simp only [List.map_cons, hothers], ?_⟩
      have hcase : (Cursor.peek ⟨previous, [t, colon] ++ us ++ rest⟩).kind ≠ .keyword .kwCase := by
        rw [List.cons_append, List.cons_append, peek_cons, ht]
        simp
      rw [Stmt.parseLabels, bind_run_of_ok (accept_of_ne hcase)]
      simp only [Bool.false_eq_true, if_false, List.cons_append, List.nil_append]
      rw [bind_run_of_ok (accept_cons _ _ ht (by simp))]
      simp only [if_true]
      rw [bind_run_of_ok (expect_cons _ _ hcolon), bind_run_of_ok hmore]
      rfl

theorem Joined.parseSomeLabels {labels : List Label} {ts : List Token}
    (h : Joined SpellsLabel labels ts) (hne : labels ≠ []) {rest : List Token}
    (previous : Option Token) {n : Nat} (hrest : NoLabel rest) (hn : 4 * ts.length < n) :
    ∃ labels' last, labels'.map Label.unplaced = labels.map Label.unplaced ∧
      Stmt.parseSomeLabels n ⟨previous, ts ++ rest⟩ = .ok labels' ⟨last, rest⟩ := by
  obtain ⟨labels', last, heq, hparse⟩ := h.parseLabels previous hrest hn
  refine ⟨labels', last, heq, ?_⟩
  rw [Stmt.parseSomeLabels, bind_run_of_ok hparse]
  cases labels' with
  | nil => exact absurd (List.map_eq_nil_iff.1 heq.symm) hne
  | cons l labels' => rfl

theorem paramDefault_none {n : Nat} {name : String} {c : Cursor}
    (h : c.peek.kind ≠ .symbol .assign) :
    Stmt.paramDefault n name c = .ok none c := by
  rw [Stmt.paramDefault, bind_run_of_ok (accept_of_ne h)]
  rfl

theorem paramDefault_some {n : Nat} {name : String} {e : Expr} {assign : Token} {ts : List Token}
    {d : Cursor} (hassign : assign.kind = .symbol .assign)
    (he : Expr.parse? n Level.assignment ⟨some assign, ts⟩ = .ok (some e) d)
    (previous : Option Token) :
    Stmt.paramDefault n name ⟨previous, assign :: ts⟩ = .ok (some e) d := by
  rw [Stmt.paramDefault, bind_run_of_ok (accept_cons _ _ hassign (by simp))]
  simp only [if_true]
  rw [bind_run_of_ok he]
  rfl

theorem identifier_cons {name : String} {t : Token} (h : t.kind = .ident name)
    (previous : Option Token) (rest : List Token) :
    identifier ⟨previous, t :: rest⟩ = .ok name ⟨some t, rest⟩ := by
  rw [identifier, bind_run_of_ok (peek_run _), peek_cons, h]
  simp only []
  rw [bind_run_of_ok (advance_cons _ _ (by rw [h]; simp))]
  rfl

/-- A parameter is read back as its name and its default value. -/
theorem SpellsParam.readsBack {p : Param} {ts : List Token} (h : SpellsParam p ts) {w : Token}
    {kind : TokenKind} (hw : w.kind = kind) (hassign : kind ≠ .symbol .assign)
    (hcont : Expr.Continuation.ofKind? kind = none) (rest : List Token) (previous : Option Token)
    {n : Nat} (hn : 4 * ts.length ≤ n) :
    ∃ t us name default last, ts = t :: us ∧ t.kind = .ident name ∧ p.name = name ∧
      default.map Expr.unplaced = p.default.map Expr.unplaced ∧
      identifier ⟨previous, ts ++ w :: rest⟩ = .ok name ⟨some t, us ++ w :: rest⟩ ∧
      Stmt.paramDefault n name ⟨some t, us ++ w :: rest⟩ = .ok default ⟨last, w :: rest⟩ := by
  cases h with
  | @required name pos t ht =>
    refine ⟨t, [], name, none, some t, rfl, ht, rfl, rfl, identifier_cons ht previous _,
      paramDefault_none ?_⟩
    rw [List.nil_append, peek_cons, hw]
    exact hassign
  | @optional name e pos t assign us ht hmark he =>
    simp only [List.length_cons] at hn
    have hrest : continuation? (w :: rest) = none := by rw [continuation?_cons hw, hcont]
    obtain ⟨e', last, heq, hparse⟩ := he.readsBack_assignment hrest (some assign) n (by omega)
    exact ⟨t, assign :: us, name, some e', last, rfl, ht, rfl,
      by rw [Option.map_some, Option.map_some, heq],
      identifier_cons ht previous _, paramDefault_some hmark hparse (some t)⟩

section Params

variable {n : Nat} {name : String} {default : Option Expr} {c c' d : Cursor}

theorem parseParams_last (hclose : c.peek.kind ≠ .symbol .rparen) (hend : c.atEnd = false)
    (hname : identifier c = .ok name c') (hdefault : Stmt.paramDefault n name c' = .ok default d)
    (hcomma : d.peek.kind ≠ .symbol .comma) :
    Stmt.parseParams (n + 1) c = .ok [⟨name, default, c.peek.position⟩] d := by
  rw [Stmt.parseParams, bind_run_of_ok (check_run _ _), bind_run_of_ok (atEnd_run _)]
  simp only [hclose, hend, decide_false, Bool.or_self, Bool.false_eq_true, if_false]
  rw [bind_run_of_ok (peek_run _), bind_run_of_ok hname, bind_run_of_ok hdefault,
    bind_run_of_ok (accept_of_ne hcomma)]
  rfl

theorem parseParams_more {params : List Param} {last : Option Token} {comma : Token}
    {rest : List Token} (hclose : c.peek.kind ≠ .symbol .rparen) (hend : c.atEnd = false)
    (hname : identifier c = .ok name c')
    (hdefault : Stmt.paramDefault n name c' = .ok default ⟨last, comma :: rest⟩)
    (hcomma : comma.kind = .symbol .comma)
    (hmore : Stmt.parseParams n ⟨some comma, rest⟩ = .ok params d) :
    Stmt.parseParams (n + 1) c = .ok (⟨name, default, c.peek.position⟩ :: params) d := by
  rw [Stmt.parseParams, bind_run_of_ok (check_run _ _), bind_run_of_ok (atEnd_run _)]
  simp only [hclose, hend, decide_false, Bool.or_self, Bool.false_eq_true, if_false]
  rw [bind_run_of_ok (peek_run _), bind_run_of_ok hname, bind_run_of_ok hdefault,
    bind_run_of_ok (accept_cons _ _ hcomma (by simp))]
  simp only [if_true]
  rw [bind_run_of_ok hmore]
  rfl

end Params

theorem Separated.parseParams {params : List Param} {ts : List Token}
    (h : Separated SpellsParam params ts) :
    ∀ {right : Token} (rest : List Token) (previous : Option Token) {n : Nat},
      right.kind = .symbol .rparen → 4 * ts.length < n →
      ∃ params' last, params'.map Param.unplaced = params.map Param.unplaced ∧
        Stmt.parseParams n ⟨previous, ts ++ right :: rest⟩ =
          .ok params' ⟨last, right :: rest⟩ := by
  induction h with
  | nil =>
    intro right rest previous n hright hn
    obtain ⟨n, rfl⟩ := Nat.exists_eq_add_of_lt hn
    refine ⟨[], previous, rfl, ?_⟩
    simp [Stmt.parseParams, bind_run_of_ok (check_run _ _), bind_run_of_ok (atEnd_run _), hright]
  | @single p ts hp =>
    intro right rest previous n hright hn
    obtain ⟨n, rfl⟩ : ∃ m, n = m + 1 := ⟨n - 1, by omega⟩
    obtain ⟨t, us, name, default, last, rfl, ht, hname, hdefault, hident, hvalue⟩ :=
      hp.readsBack hright (by simp) rfl rest previous (n := n) (by omega)
    have hkind : (Cursor.peek ⟨previous, t :: us ++ right :: rest⟩).kind = .ident name := ht
    refine ⟨[⟨name, default, t.position⟩], last, by simp [Param.unplaced, hname, hdefault], ?_⟩
    exact parseParams_last (by rw [hkind]; simp) (by rw [Cursor.atEnd, hkind]; rfl) hident hvalue
      (by rw [peek_cons, hright]; simp)
  -- A comma is behind the parameter, so another one is read.
  | @cons p q params ts us comma hp hcomma _ ih =>
    intro right rest previous n hright hn
    simp only [List.length_append, List.length_cons] at hn
    obtain ⟨n, rfl⟩ : ∃ m, n = m + 1 := ⟨n - 1, by omega⟩
    obtain ⟨others, last, hothers, hmore⟩ := ih rest (some comma) (n := n) hright (by omega)
    obtain ⟨t, vs, name, default, last', rfl, ht, hname, hdefault, hident, hvalue⟩ :=
      hp.readsBack hcomma (by simp) rfl (us ++ right :: rest) previous (n := n) (by omega)
    have hkind : (Cursor.peek ⟨previous, t :: vs ++ comma :: (us ++ right :: rest)⟩).kind =
        .ident name := ht
    have hsplit : t :: vs ++ comma :: us ++ right :: rest =
        t :: vs ++ comma :: (us ++ right :: rest) := by simp
    rw [hsplit]
    refine ⟨⟨name, default, t.position⟩ :: others, last, ?_, ?_⟩
    · rw [List.map_cons, hothers]
      simp [Param.unplaced, hname, hdefault]
    · exact parseParams_more (by rw [hkind]; simp) (by rw [Cursor.atEnd, hkind]; rfl) hident hvalue
        hcomma hmore

/-! ## 4. Single steps

What each parser of statements does in front of tokens whose parts are known to be read. -/

section Steps

variable {n : Nat} {stop : TokenKind → Bool} {previous last : Option Token} {rest : List Token}
  {c d : Cursor}

theorem parseMany_end (h : EndsMany stop rest) :
    Stmt.parseMany (n + 1) stop ⟨previous, rest⟩ = .ok [] ⟨previous, rest⟩ := by
  rw [Stmt.parseMany, bind_run_of_ok (atEnd_run _), bind_run_of_ok (peek_run _),
    if_pos (h previous)]
  rfl

theorem parseMany_more {s : Stmt} {body : List Stmt} {d' : Cursor} (hend : c.atEnd = false)
    (hstop : stop c.peek.kind = false) (hs : Stmt.parse? n c = .ok (some s) d)
    (hmore : Stmt.parseMany n stop d = .ok body d') :
    Stmt.parseMany (n + 1) stop c = .ok (s :: body) d' := by
  rw [Stmt.parseMany, bind_run_of_ok (atEnd_run _), bind_run_of_ok (peek_run _)]
  simp only [hend, hstop, Bool.or_self, Bool.false_eq_true, if_false]
  rw [bind_run_of_ok hs]
  exact bind_run_of_ok hmore _

theorem parse?_semicolon {t : Token} (ht : t.kind = .symbol .semicolon) :
    Stmt.parse? (n + 3) ⟨previous, t :: rest⟩ = .ok none ⟨previous, t :: rest⟩ := by
  rw [Stmt.parse?, bind_run_of_ok (peek_run _), peek_cons, ht]
  exact bind_run_of_ok (parse?_none (by rw [peek_cons, ht]; rfl)) _

/-- A semicolon where a statement might start is passed over. -/
theorem parseMany_semicolon {t : Token} {body : List Stmt} (ht : t.kind = .symbol .semicolon)
    (hstop : stop (.symbol .semicolon) = false)
    (hmore : Stmt.parseMany (n + 3) stop ⟨some t, rest⟩ = .ok body d) :
    Stmt.parseMany (n + 4) stop ⟨previous, t :: rest⟩ = .ok body d := by
  have hend : Cursor.atEnd ⟨previous, t :: rest⟩ = false := by rw [Cursor.atEnd, peek_cons, ht]; rfl
  rw [Stmt.parseMany, bind_run_of_ok (atEnd_run _), bind_run_of_ok (peek_run _), peek_cons, ht]
  simp only [hend, hstop, Bool.or_self, Bool.false_eq_true, if_false]
  rw [bind_run_of_ok (parse?_semicolon ht)]
  exact (bind_run_of_ok (advance_cons _ _ (by rw [ht]; simp)) _).trans hmore

theorem parseBlock_run {body : List Stmt} {left right : Token} {ts : List Token}
    (hleft : left.kind = .symbol .lbrace)
    (hbody : Stmt.parseMany n Stmt.endsBlock ⟨some left, ts⟩ = .ok body ⟨last, right :: rest⟩)
    (hright : right.kind = .symbol .rbrace) :
    Stmt.parseBlock (n + 1) ⟨previous, left :: ts⟩ = .ok body ⟨some right, rest⟩ := by
  rw [Stmt.parseBlock, bind_run_of_ok (expect_cons _ _ hleft), bind_run_of_ok hbody,
    bind_run_of_ok (expect_cons _ _ hright)]
  rfl

theorem parseBody_empty {t : Token} (ht : t.kind = .symbol .semicolon) :
    Stmt.parseBody (n + 1) ⟨previous, t :: rest⟩ = .ok (.block [] t.position) ⟨some t, rest⟩ := by
  rw [Stmt.parseBody, bind_run_of_ok (peek_run _), bind_run_of_ok (accept_cons _ _ ht (by simp))]
  rfl

theorem parseBody_stmt {s : Stmt} (hne : c.peek.kind ≠ .symbol .semicolon)
    (hs : Stmt.parse? n c = .ok (some s) d) :
    Stmt.parseBody (n + 1) c = .ok s d := by
  rw [Stmt.parseBody, bind_run_of_ok (peek_run _), bind_run_of_ok (accept_of_ne hne)]
  exact require_of_some hs

theorem optionalSemicolon_cons {t : Token} (ht : t.kind = .symbol .semicolon) :
    Stmt.optionalSemicolon ⟨previous, t :: rest⟩ = .ok () ⟨some t, rest⟩ := by
  rw [Stmt.optionalSemicolon, bind_run_of_ok (accept_cons _ _ ht (by simp))]
  rfl

/-- A statement that starts like an expression is one. -/
theorem parse?_expr {e : Expr} {semicolon : Token} (hstart : startsOperand c.peek.kind = true)
    (he : Expr.parse? n Level.lowest c = .ok (some e) ⟨last, semicolon :: rest⟩)
    (hend : semicolon.kind = .symbol .semicolon) :
    Stmt.parse? (n + 1) c = .ok (some (.expr e)) ⟨some semicolon, rest⟩ := by
  -- What an expression leads to does not depend on how it starts, only that no statement starts so.
  have hrun : ∀ {f : Option Expr → Parser (Option Stmt)} {g : Unit → Parser (Option Stmt)},
      f (some e) = Stmt.optionalSemicolon >>= g → g () = pure (some (.expr e)) →
      (Expr.parse? n Level.lowest >>= f) c = .ok (some (.expr e)) ⟨some semicolon, rest⟩ := by
    intro f g hf hg
    rw [bind_run_of_ok he, hf, bind_run_of_ok (optionalSemicolon_cons hend), hg]
    rfl
  rw [Stmt.parse?, bind_run_of_ok (peek_run _)]
  generalize c.peek.kind = kind at hstart
  cases kind with
  | symbol s => cases s <;> first | exact hrun rfl rfl | cases hstart
  | keyword k => cases k <;> cases hstart
  | _ => exact hrun rfl rfl

end Steps

/-! ## 5. Bodies, lists and sections

The parts of a statement, under the hypothesis that shorter statements are read back.  Fuel goes
down by one for each parser that is entered, and every statement has a token, so four times the
number of tokens covers a statement and the lists around it. -/

/-- Reading the tokens of `s` in front of `rest` gives `s`, up to positions, and leaves `rest`. -/
def StmtReadsBack (s : Stmt) (ts rest : List Token) : Prop :=
  ∀ previous fuel, 4 * ts.length + 4 ≤ fuel →
    ∃ s' last, s'.unplaced = s.unplaced ∧
      Stmt.parse? fuel ⟨previous, ts ++ rest⟩ = .ok (some s') ⟨last, rest⟩

/-- Statements of at most `bound` tokens are read back in front of what they do not take. -/
def StmtsReadUpTo (bound : Nat) : Prop :=
  ∀ ⦃s : Stmt⦄ ⦃ts rest : List Token⦄, ts.length ≤ bound → SpellsStmt s ts →
    (s.endsOpen = true → NoElse rest) → StmtReadsBack s ts rest

section Parts

variable {bound : Nat}

theorem StmtsReadUpTo.body (ih : StmtsReadUpTo bound) {s : Stmt} {ts rest : List Token}
    (h : SpellsBody SpellsStmt s ts) (hts : ts.length ≤ bound)
    (hopen : s.endsOpen = true → NoElse rest) (previous : Option Token) {n : Nat}
    (hn : 4 * ts.length + 5 ≤ n) :
    ∃ s' last, s'.unplaced = s.unplaced ∧
      Stmt.parseBody n ⟨previous, ts ++ rest⟩ = .ok s' ⟨last, rest⟩ := by
  obtain ⟨n, rfl⟩ : ∃ m, n = m + 1 := ⟨n - 1, by omega⟩
  cases h with
  | stmt hs =>
    obtain ⟨s', last, heq, hparse⟩ := ih hts hs hopen previous n (by omega)
    exact ⟨s', last, heq, parseBody_stmt (hs.peek previous rest rfl) hparse⟩
  | @empty pos semicolon hsemicolon =>
    exact ⟨.block [] semicolon.position, some semicolon, rfl, parseBody_empty hsemicolon⟩

theorem StmtsReadUpTo.many (ih : StmtsReadUpTo bound) {stop : TokenKind → Bool}
    (hstop : Passes stop) {body : List Stmt} {ts rest : List Token} (h : Joined SpellsStmt body ts)
    (hrest : EndsMany stop rest) :
    ∀ (previous : Option Token) {n : Nat}, ts.length ≤ bound → 4 * ts.length + 5 ≤ n →
      ∃ body' last, Stmt.unplacedMany body' = Stmt.unplacedMany body ∧
        Stmt.parseMany n stop ⟨previous, ts ++ rest⟩ = .ok body' ⟨last, rest⟩ := by
  induction h with
  | nil =>
    intro previous n _ hn
    obtain ⟨n, rfl⟩ : ∃ m, n = m + 1 := ⟨n - 1, by omega⟩
    exact ⟨[], previous, rfl, parseMany_end hrest⟩
  | @cons s body ts us hs hbody more =>
    intro previous n hts hn
    obtain ⟨n, rfl⟩ : ∃ m, n = m + 1 := ⟨n - 1, by omega⟩
    obtain ⟨t, vs, rfl, ht⟩ := hs.starts
    simp only [List.length_append, List.length_cons] at hts hn
    -- the next statement does not start with an `else`, nor does what ends the list
    have hopen : s.endsOpen = true → NoElse (us ++ rest) :=
      fun _ => .joined hbody (hrest.noElse hstop)
    obtain ⟨s', last, heq, hparse⟩ :=
      ih (by rw [List.length_cons]; omega) hs hopen previous n (by rw [List.length_cons]; omega)
    obtain ⟨body', last', heqs, hmore⟩ := more last (n := n) (by omega) (by omega)
    refine ⟨s' :: body', last', by rw [Stmt.unplacedMany, Stmt.unplacedMany, heq, heqs], ?_⟩
    rw [List.append_assoc]
    have hend : Cursor.atEnd ⟨previous, t :: vs ++ (us ++ rest)⟩ = false :=
      decide_eq_false (hs.peek previous _ rfl)
    exact parseMany_more hend (hstop _ (.inl ht)) hparse hmore

theorem Joined.startsLabel {labels : List Label} {ts : List Token}
    (h : Joined SpellsLabel labels ts) (hne : labels ≠ []) :
    ∃ t us, ts = t :: us ∧ (t.kind = .keyword .kwCase ∨ t.kind = .keyword .kwDefault) := by
  cases h with
  | nil => exact absurd rfl hne
  | cons hlabel _ =>
    cases hlabel with
    | case ht _ _ => exact ⟨_, _, rfl, .inl ht⟩
    | default ht _ => exact ⟨_, _, rfl, .inr ht⟩

theorem SpellsSection.startsLabel {sec : Section} {ts : List Token}
    (h : SpellsSection SpellsStmt sec ts) :
    ∃ t us, ts = t :: us ∧ (t.kind = .keyword .kwCase ∨ t.kind = .keyword .kwDefault) := by
  cases h with
  | empty hne hlabels _ =>
    obtain ⟨t, us, rfl, ht⟩ := hlabels.startsLabel hne
    exact ⟨t, _, rfl, ht⟩
  | body hne hlabels _ =>
    obtain ⟨t, us, rfl, ht⟩ := hlabels.startsLabel hne
    exact ⟨t, _, rfl, ht⟩

/-- A section ends where the next one begins, or at the closing brace. -/
theorem endsMany_sections {sections : List Section} {ts : List Token} {right : Token}
    (h : Joined (SpellsSection SpellsStmt) sections ts) (hright : right.kind = .symbol .rbrace)
    (rest : List Token) :
    EndsMany Stmt.endsSection (ts ++ right :: rest) := by
  cases h with
  | nil => exact endsMany_cons hright rfl rest
  | cons hsec _ =>
    obtain ⟨t, us, rfl, ht⟩ := hsec.startsLabel
    rcases ht with ht | ht
    · exact endsMany_cons ht rfl _
    · exact endsMany_cons ht rfl _

theorem noLabel_semicolon {semicolon : Token} (h : semicolon.kind = .symbol .semicolon)
    (rest : List Token) :
    NoLabel (semicolon :: rest) := by
  intro previous
  rw [peek_cons, h]
  simp

theorem SpellsStmt.noLabel {s : Stmt} {ts : List Token} (h : SpellsStmt s ts) (rest : List Token) :
    NoLabel (ts ++ rest) :=
  fun previous => ⟨h.peek previous rest rfl, h.peek previous rest rfl⟩

theorem StmtsReadUpTo.section (ih : StmtsReadUpTo bound) {sec : Section} {ts rest : List Token}
    (h : SpellsSection SpellsStmt sec ts) (hts : ts.length ≤ bound)
    (hrest : EndsMany Stmt.endsSection rest) (previous : Option Token) {n : Nat}
    (hn : 4 * ts.length + 4 ≤ n) :
    ∃ labels body last c, Stmt.unplacedSections [.mk labels body] = Stmt.unplacedSections [sec] ∧
      Stmt.parseSomeLabels n ⟨previous, ts ++ rest⟩ = .ok labels c ∧
      Stmt.parseMany n Stmt.endsSection c = .ok body ⟨last, rest⟩ := by
  cases h with
  -- The semicolon in place of the statements is skipped, which takes fuel of its own.
  | @empty labels semicolon ts hne hlabels hsemicolon =>
    simp only [List.length_append, List.length_cons, List.length_nil] at hts hn
    obtain ⟨m, rfl⟩ : ∃ m, n = m + 4 := ⟨n - 4, by omega⟩
    obtain ⟨labels', last, heq, hparse⟩ :=
      hlabels.parseSomeLabels hne previous (n := m + 4) (noLabel_semicolon hsemicolon rest)
        (by omega)
    refine ⟨labels', [], some semicolon, ⟨last, semicolon :: rest⟩, ?_, ?_, ?_⟩
    · rw [Stmt.unplacedSections, heq]
      rfl
    · rw [List.append_assoc]
      exact hparse
    · exact parseMany_semicolon hsemicolon rfl (parseMany_end hrest)
  | @body labels s body ts us hne hlabels hbody =>
    simp only [List.length_append] at hts hn
    -- The labels take up tokens, so the statements behind them have fuel to spare.
    have hlength : 0 < ts.length := by
      obtain ⟨t, vs, rfl, -⟩ := hlabels.startsLabel hne
      simp
    have hnext : NoLabel (us ++ rest) := by
      cases hbody with
      | cons hs _ =>
        rw [List.append_assoc]
        exact hs.noLabel _
    obtain ⟨labels', last, heq, hparse⟩ :=
      hlabels.parseSomeLabels hne previous (n := n) hnext (by omega)
    obtain ⟨body', last', hbody', hmany⟩ :=
      ih.many passes_endsSection hbody hrest last (n := n) (by omega) (by omega)
    refine ⟨labels', body', last', ⟨last, us ++ rest⟩, ?_, ?_, hmany⟩
    · rw [Stmt.unplacedSections, heq, hbody']
      rfl
    · rw [List.append_assoc]
      exact hparse

theorem parseSections_end {n : Nat} {right : Token} (hright : right.kind = .symbol .rbrace)
    (previous : Option Token) (rest : List Token) :
    Stmt.parseSections (n + 1) ⟨previous, right :: rest⟩ = .ok [] ⟨previous, right :: rest⟩ := by
  simp [Stmt.parseSections, bind_run_of_ok (check_run _ _), bind_run_of_ok (atEnd_run _), hright]

theorem parseSections_more {n : Nat} {labels : List Label} {body : List Stmt}
    {sections : List Section} {c d d' d'' : Cursor} (hclose : c.peek.kind ≠ .symbol .rbrace)
    (hend : c.atEnd = false) (hlabels : Stmt.parseSomeLabels n c = .ok labels d)
    (hbody : Stmt.parseMany n Stmt.endsSection d = .ok body d')
    (hmore : Stmt.parseSections n d' = .ok sections d'') :
    Stmt.parseSections (n + 1) c = .ok (.mk labels body :: sections) d'' := by
  rw [Stmt.parseSections, bind_run_of_ok (check_run _ _), bind_run_of_ok (atEnd_run _)]
  simp only [hclose, hend, decide_false, Bool.or_self, Bool.false_eq_true, if_false]
  rw [bind_run_of_ok hlabels, bind_run_of_ok hbody, bind_run_of_ok hmore]
  rfl

theorem StmtsReadUpTo.sections (ih : StmtsReadUpTo bound) {sections : List Section}
    {ts : List Token} (h : Joined (SpellsSection SpellsStmt) sections ts) {right : Token}
    (hright : right.kind = .symbol .rbrace) (rest : List Token) :
    ∀ (previous : Option Token) {n : Nat}, ts.length ≤ bound → 4 * ts.length + 5 ≤ n →
      ∃ sections' last, Stmt.unplacedSections sections' = Stmt.unplacedSections sections ∧
        Stmt.parseSections n ⟨previous, ts ++ right :: rest⟩ =
          .ok sections' ⟨last, right :: rest⟩ := by
  induction h with
  | nil =>
    intro previous n _ hn
    obtain ⟨n, rfl⟩ : ∃ m, n = m + 1 := ⟨n - 1, by omega⟩
    exact ⟨[], previous, rfl, parseSections_end hright previous rest⟩
  | @cons sec sections ts us hsec hsections more =>
    intro previous n hts hn
    obtain ⟨n, rfl⟩ : ∃ m, n = m + 1 := ⟨n - 1, by omega⟩
    obtain ⟨t, vs, hstart, ht⟩ := hsec.startsLabel
    have hlength : 0 < ts.length := by simp [hstart]
    simp only [List.length_append] at hts hn
    obtain ⟨labels', body', last, c, heq, hlabels, hbody⟩ :=
      ih.section hsec (by omega) (endsMany_sections hsections hright rest) previous (n := n)
        (by omega)
    obtain ⟨sections', last', heqs, hmore⟩ := more last (n := n) (by omega) (by omega)
    have hkind : ∀ kind, kind ≠ .keyword .kwCase → kind ≠ .keyword .kwDefault →
        (Cursor.peek ⟨previous, ts ++ (us ++ right :: rest)⟩).kind ≠ kind := by
      rintro kind hcase hdefault rfl
      rw [hstart, List.cons_append, peek_cons] at hcase hdefault
      exact ht.elim hcase hdefault
    refine ⟨.mk labels' body' :: sections', last', ?_, ?_⟩
    · cases sec
      simp only [Stmt.unplacedSections, List.cons.injEq, and_true] at heq ⊢
      exact ⟨heq, heqs⟩
    · rw [List.append_assoc]
      exact parseSections_more (hkind _ (by simp) (by simp))
        (decide_eq_false (hkind _ (by simp) (by simp))) hlabels hbody hmore

end Parts

/-! ## 6. The round trip

One lemma for each form.  The first token selects the branch of the parser, and the parts are read
back in order. -/

section Cases

variable {bound : Nat} {pos : Position} {t left right : Token} {ts us rest : List Token}

/-- Statements in braces are read back up to the closing brace. -/
theorem StmtsReadUpTo.braced (ih : StmtsReadUpTo bound) {body : List Stmt} (hts : ts.length ≤ bound)
    (hleft : left.kind = .symbol .lbrace) (hbody : Joined SpellsStmt body ts)
    (hright : right.kind = .symbol .rbrace) (rest : List Token) (previous : Option Token) {n : Nat}
    (hn : 4 * ts.length + 6 ≤ n) :
    ∃ body', Stmt.unplacedMany body' = Stmt.unplacedMany body ∧
      Stmt.parseBlock n ⟨previous, left :: (ts ++ right :: rest)⟩ =
        .ok body' ⟨some right, rest⟩ := by
  obtain ⟨n, rfl⟩ : ∃ m, n = m + 1 := ⟨n - 1, by omega⟩
  obtain ⟨body', last, heq, hmany⟩ :=
    ih.many passes_endsBlock hbody (endsMany_cons hright rfl rest) (some left) (n := n) hts
      (by omega)
  exact ⟨body', heq, parseBlock_run hleft hmany hright⟩

theorem StmtsReadUpTo.block (ih : StmtsReadUpTo bound) {body : List Stmt}
    (hts : (left :: (ts ++ [right])).length ≤ bound + 1) (hleft : left.kind = .symbol .lbrace)
    (hbody : Joined SpellsStmt body ts) (hright : right.kind = .symbol .rbrace) :
    StmtReadsBack (.block body pos) (left :: (ts ++ [right])) rest := by
  intro previous fuel hfuel
  simp only [List.length_cons, List.length_append, List.length_nil] at hts hfuel
  obtain ⟨n, rfl⟩ : ∃ m, fuel = m + 1 := ⟨fuel - 1, by omega⟩
  obtain ⟨body', heq, hblock⟩ :=
    ih.braced (by omega) hleft hbody hright rest previous (n := n) (by omega)
  refine ⟨.block body' left.position, some right, by rw [Stmt.unplaced, Stmt.unplaced, heq], ?_⟩
  simp only [List.cons_append, List.append_assoc, List.nil_append]
  rw [Stmt.parse?, bind_run_of_ok (peek_run _), peek_cons, hleft]
  exact bind_run_of_ok hblock _

theorem StmtsReadUpTo.ifThen (ih : StmtsReadUpTo bound) {c : Expr} {x : Stmt}
    (hts : (t :: (ts ++ us)).length ≤ bound + 1) (hrest : NoElse rest)
    (ht : t.kind = .keyword .kwIf) (hc : SpellsCondition c ts) (hx : SpellsBody SpellsStmt x us) :
    StmtReadsBack (.ifElse c x none pos) (t :: (ts ++ us)) rest := by
  intro previous fuel hfuel
  simp only [List.length_cons, List.length_append] at hts hfuel
  obtain ⟨n, rfl⟩ : ∃ m, fuel = m + 1 := ⟨fuel - 1, by omega⟩
  obtain ⟨c', last, hc', hcond⟩ := hc.readsBack (us ++ rest) (some t) (n := n) (by omega)
  obtain ⟨x', last', hx', hbody⟩ := ih.body hx (by omega) (fun _ => hrest) last (n := n) (by omega)
  refine ⟨.ifElse c' x' none t.position, last', by rw [Stmt.unplaced, Stmt.unplaced, hc', hx'], ?_⟩
  rw [List.cons_append, List.append_assoc, Stmt.parse?, bind_run_of_ok (peek_run _), peek_cons, ht]
  simp only []
  rw [bind_run_of_ok (advance_cons _ _ (by rw [ht]; simp)), bind_run_of_ok hcond,
    bind_run_of_ok hbody, bind_run_of_ok (accept_of_ne (hrest last'))]
  rfl

theorem StmtsReadUpTo.ifElse (ih : StmtsReadUpTo bound) {c : Expr} {x y : Stmt} {other : Token}
    {vs : List Token} (hts : (t :: (ts ++ (us ++ other :: vs))).length ≤ bound + 1)
    (hrest : y.endsOpen = true → NoElse rest) (ht : t.kind = .keyword .kwIf)
    (hc : SpellsCondition c ts) (hx : SpellsBody SpellsStmt x us) (hclosed : x.endsOpen = false)
    (hother : other.kind = .keyword .kwElse) (hy : SpellsBody SpellsStmt y vs) :
    StmtReadsBack (.ifElse c x (some y) pos) (t :: (ts ++ (us ++ other :: vs))) rest := by
  intro previous fuel hfuel
  simp only [List.length_cons, List.length_append] at hts hfuel
  obtain ⟨n, rfl⟩ : ∃ m, fuel = m + 1 := ⟨fuel - 1, by omega⟩
  obtain ⟨c', last, hc', hcond⟩ :=
    hc.readsBack (us ++ other :: (vs ++ rest)) (some t) (n := n) (by omega)
  -- the branch in front of the `else` leaves it alone, since it does not end in an `if` of its own
  have hopen : x.endsOpen = true → NoElse (other :: (vs ++ rest)) := by
    rw [hclosed]
    simp
  obtain ⟨x', last', hx', hthen⟩ := ih.body hx (by omega) hopen last (n := n) (by omega)
  obtain ⟨y', last'', hy', helse⟩ := ih.body hy (by omega) hrest (some other) (n := n) (by omega)
  refine ⟨.ifElse c' x' (some y') t.position, last'',
    by rw [Stmt.unplaced, Stmt.unplaced, hc', hx', hy'], ?_⟩
  simp only [List.cons_append, List.append_assoc]
  rw [Stmt.parse?, bind_run_of_ok (peek_run _), peek_cons, ht]
  simp only []
  rw [bind_run_of_ok (advance_cons _ _ (by rw [ht]; simp)), bind_run_of_ok hcond,
    bind_run_of_ok hthen, bind_run_of_ok (accept_cons _ _ hother (by simp))]
  exact bind_run_of_ok helse _

theorem StmtsReadUpTo.switch (ih : StmtsReadUpTo bound) {e : Expr} {sections : List Section}
    (hts : (t :: (ts ++ left :: (us ++ [right]))).length ≤ bound + 1)
    (ht : t.kind = .keyword .kwSwitch) (he : SpellsCondition e ts)
    (hleft : left.kind = .symbol .lbrace)
    (hsections : Joined (SpellsSection SpellsStmt) sections us)
    (hright : right.kind = .symbol .rbrace) :
    StmtReadsBack (.switch e sections pos) (t :: (ts ++ left :: (us ++ [right]))) rest := by
  intro previous fuel hfuel
  simp only [List.length_cons, List.length_append, List.length_nil] at hts hfuel
  obtain ⟨n, rfl⟩ : ∃ m, fuel = m + 1 := ⟨fuel - 1, by omega⟩
  obtain ⟨e', last, he', hsubject⟩ :=
    he.readsBack (left :: (us ++ right :: rest)) (some t) (n := n) (by omega)
  obtain ⟨sections', last', heq, hbody⟩ :=
    ih.sections hsections hright rest (some left) (n := n) (by omega) (by omega)
  refine ⟨.switch e' sections' t.position, some right,
    by rw [Stmt.unplaced, Stmt.unplaced, he', heq], ?_⟩
  simp only [List.cons_append, List.append_assoc, List.nil_append]
  rw [Stmt.parse?, bind_run_of_ok (peek_run _), peek_cons, ht]
  simp only []
  rw [bind_run_of_ok (advance_cons _ _ (by rw [ht]; simp)), bind_run_of_ok hsubject,
    bind_run_of_ok (accept_cons _ _ hleft (by simp))]
  simp only [if_true]
  rw [bind_run_of_ok hbody, bind_run_of_ok (expect_cons _ _ hright)]
  rfl

theorem StmtsReadUpTo.whileLoop (ih : StmtsReadUpTo bound) {c : Expr} {body : Stmt}
    (hts : (t :: (ts ++ us)).length ≤ bound + 1) (hrest : body.endsOpen = true → NoElse rest)
    (ht : t.kind = .keyword .kwWhile) (hc : SpellsCondition c ts)
    (hbody : SpellsBody SpellsStmt body us) :
    StmtReadsBack (.whileLoop c body pos) (t :: (ts ++ us)) rest := by
  intro previous fuel hfuel
  simp only [List.length_cons, List.length_append] at hts hfuel
  obtain ⟨n, rfl⟩ : ∃ m, fuel = m + 1 := ⟨fuel - 1, by omega⟩
  obtain ⟨c', last, hc', hcond⟩ := hc.readsBack (us ++ rest) (some t) (n := n) (by omega)
  obtain ⟨body', last', heq, hloop⟩ := ih.body hbody (by omega) hrest last (n := n) (by omega)
  refine ⟨.whileLoop c' body' t.position, last', by rw [Stmt.unplaced, Stmt.unplaced, hc', heq], ?_⟩
  rw [List.cons_append, List.append_assoc, Stmt.parse?, bind_run_of_ok (peek_run _), peek_cons, ht]
  simp only []
  rw [bind_run_of_ok (advance_cons _ _ (by rw [ht]; simp)), bind_run_of_ok hcond]
  exact bind_run_of_ok hloop _

theorem StmtsReadUpTo.forLoop (ih : StmtsReadUpTo bound) {init c step : Option Expr} {body : Stmt}
    {first second : Token} {vs ws : List Token}
    (hts : (t :: left :: (ts ++ first :: (us ++ second :: (vs ++ right :: ws)))).length ≤ bound + 1)
    (hrest : body.endsOpen = true → NoElse rest) (ht : t.kind = .keyword .kwFor)
    (hleft : left.kind = .symbol .lparen) (hinit : Optional (Spells Level.lowest) init ts)
    (hfirst : first.kind = .symbol .semicolon) (hc : Optional (Spells Level.lowest) c us)
    (hsecond : second.kind = .symbol .semicolon) (hstep : Optional (Spells Level.lowest) step vs)
    (hright : right.kind = .symbol .rparen) (hbody : SpellsBody SpellsStmt body ws) :
    StmtReadsBack (.forLoop init c step body pos)
      (t :: left :: (ts ++ first :: (us ++ second :: (vs ++ right :: ws)))) rest := by
  intro previous fuel hfuel
  simp only [List.length_cons, List.length_append] at hts hfuel
  obtain ⟨n, rfl⟩ : ∃ m, fuel = m + 1 := ⟨fuel - 1, by omega⟩
  obtain ⟨init', last, hinit', hparse⟩ := hinit.readsBack hfirst rfl rfl
    (us ++ second :: (vs ++ right :: (ws ++ rest))) (some left) (n := n) (by omega)
  obtain ⟨c', last', hc', hparse'⟩ :=
    hc.readsBack hsecond rfl rfl (vs ++ right :: (ws ++ rest)) (some first) (n := n) (by omega)
  obtain ⟨step', last'', hstep', hparse''⟩ :=
    hstep.readsBack hright rfl rfl (ws ++ rest) (some second) (n := n) (by omega)
  obtain ⟨body', lastOf, heq, hloop⟩ :=
    ih.body hbody (by omega) hrest (some right) (n := n) (by omega)
  refine ⟨.forLoop init' c' step' body' t.position, lastOf,
    by rw [Stmt.unplaced, Stmt.unplaced, hinit', hc', hstep', heq], ?_⟩
  simp only [List.cons_append, List.append_assoc]
  rw [Stmt.parse?, bind_run_of_ok (peek_run _), peek_cons, ht]
  simp only []
  rw [bind_run_of_ok (advance_cons _ _ (by rw [ht]; simp)), bind_run_of_ok (expect_cons _ _ hleft),
    bind_run_of_ok hparse, bind_run_of_ok (expect_cons _ _ hfirst), bind_run_of_ok hparse',
    bind_run_of_ok (expect_cons _ _ hsecond), bind_run_of_ok hparse'',
    bind_run_of_ok (expect_cons _ _ hright)]
  exact bind_run_of_ok hloop _

/-- A jump is a keyword and a semicolon. -/
theorem stmtReadsBack_jump {jump : Position → Stmt} {keyword : Keyword} {semicolon : Token}
    (ht : t.kind = .keyword keyword) (hend : semicolon.kind = .symbol .semicolon)
    (hjump : ∀ p q, (jump p).unplaced = (jump q).unplaced)
    (hparse : ∀ n previous us, Stmt.parse? (n + 1) ⟨previous, t :: us⟩ = (do
      Parser.advance
      Stmt.optionalSemicolon
      return some (jump t.position) : Parser (Option Stmt)) ⟨previous, t :: us⟩) :
    StmtReadsBack (jump pos) [t, semicolon] rest := by
  intro previous fuel hfuel
  obtain ⟨n, rfl⟩ : ∃ m, fuel = m + 1 := ⟨fuel - 1, by omega⟩
  refine ⟨jump t.position, some semicolon, hjump _ _, ?_⟩
  rw [List.cons_append, List.cons_append, hparse]
  rw [bind_run_of_ok (advance_cons _ _ (by rw [ht]; simp)),
    bind_run_of_ok (optionalSemicolon_cons hend)]
  rfl

theorem stmtReadsBack_return {e : Option Expr} {semicolon : Token}
    (ht : t.kind = .keyword .kwReturn) (he : Optional (Spells Level.lowest) e ts)
    (hend : semicolon.kind = .symbol .semicolon) :
    StmtReadsBack (.returnValue e pos) (t :: (ts ++ [semicolon])) rest := by
  intro previous fuel hfuel
  simp only [List.length_cons, List.length_append, List.length_nil] at hfuel
  obtain ⟨n, rfl⟩ : ∃ m, fuel = m + 1 := ⟨fuel - 1, by omega⟩
  obtain ⟨e', last, heq, hparse⟩ := he.readsBack hend rfl rfl rest (some t) (n := n) (by omega)
  refine ⟨.returnValue e' t.position, some semicolon, by rw [Stmt.unplaced, Stmt.unplaced, heq], ?_⟩
  simp only [List.cons_append, List.append_assoc, List.nil_append]
  rw [Stmt.parse?, bind_run_of_ok (peek_run _), peek_cons, ht]
  simp only []
  rw [bind_run_of_ok (advance_cons _ _ (by rw [ht]; simp)), bind_run_of_ok hparse,
    bind_run_of_ok (optionalSemicolon_cons hend)]
  rfl

theorem stmtReadsBack_expr {e : Expr} {semicolon : Token} (he : Spells Level.lowest e ts)
    (hend : semicolon.kind = .symbol .semicolon) :
    StmtReadsBack (.expr e) (ts ++ [semicolon]) rest := by
  intro previous fuel hfuel
  simp only [List.length_append, List.length_cons, List.length_nil] at hfuel
  obtain ⟨n, rfl⟩ : ∃ m, fuel = m + 1 := ⟨fuel - 1, by omega⟩
  obtain ⟨e', last, heq, hparse⟩ :=
    he.readsBack (continuation?_cons hend rest) previous n (by omega)
  refine ⟨.expr e', some semicolon, by rw [Stmt.unplaced, Stmt.unplaced, heq], ?_⟩
  rw [List.append_assoc]
  obtain ⟨w, ws, rfl, hw⟩ := he.startsPhrase
  exact parse?_expr hw hparse hend

theorem StmtsReadUpTo.declare (ih : StmtsReadUpTo bound) {name : String} {params : List Param}
    {body : List Stmt} {ident opening closing : Token}
    (hts : (t :: ident :: left :: (ts ++ right :: (opening :: (us ++ [closing])))).length ≤
      bound + 1)
    (ht : t.kind = .keyword .kwFn) (hident : ident.kind = .ident name)
    (hleft : left.kind = .symbol .lparen) (hparams : Separated SpellsParam params ts)
    (hright : right.kind = .symbol .rparen) (hopening : opening.kind = .symbol .lbrace)
    (hbody : Joined SpellsStmt body us) (hclosing : closing.kind = .symbol .rbrace) :
    StmtReadsBack (.declare (.mk name params body pos))
      (t :: ident :: left :: (ts ++ right :: (opening :: (us ++ [closing])))) rest := by
  intro previous fuel hfuel
  simp only [List.length_cons, List.length_append, List.length_nil] at hts hfuel
  obtain ⟨n, rfl⟩ : ∃ m, fuel = m + 1 := ⟨fuel - 1, by omega⟩
  obtain ⟨params', last, hparams', hparse⟩ :=
    hparams.parseParams (opening :: (us ++ closing :: rest)) (some left) (n := n) hright (by omega)
  obtain ⟨body', heq, hblock⟩ :=
    ih.braced (by omega) hopening hbody hclosing rest (some right) (n := n) (by omega)
  refine ⟨.declare (.mk name params' body' t.position), some closing,
    by rw [Stmt.unplaced, Stmt.unplaced, hparams', heq], ?_⟩
  simp only [List.cons_append, List.append_assoc, List.nil_append]
  rw [Stmt.parse?, bind_run_of_ok (peek_run _), peek_cons, ht]
  simp only []
  rw [bind_run_of_ok (advance_cons _ _ (by rw [ht]; simp)),
    bind_run_of_ok (identifier_cons hident _ _), bind_run_of_ok (expect_cons _ _ hleft),
    bind_run_of_ok hparse, bind_run_of_ok (expect_cons _ _ hright),
    bind_run_of_ok (check_run _ _), peek_cons, hopening]
  exact bind_run_of_ok hblock _

end Cases

/-- Every statement is read back in front of what it does not take. -/
theorem stmtsReadUpTo (bound : Nat) : StmtsReadUpTo bound := by
  induction bound with
  -- A statement has at least one token.
  | zero =>
    intro s ts rest hts h
    obtain ⟨t, us, rfl, -⟩ := h.starts
    simp at hts
  | succ bound ih =>
    intro s ts rest hts h hopen
    cases h with
    | block hleft hbody hright => exact ih.block hts hleft hbody hright
    | ifThen ht hc hx => exact ih.ifThen hts (hopen rfl) ht hc hx
    | ifElse ht hc hx hclosed hother hy => exact ih.ifElse hts hopen ht hc hx hclosed hother hy
    | switch ht he hleft hsections hright => exact ih.switch hts ht he hleft hsections hright
    | whileLoop ht hc hbody => exact ih.whileLoop hts hopen ht hc hbody
    | forLoop ht hleft hinit hfirst hc hsecond hstep hright hbody =>
      exact ih.forLoop hts hopen ht hleft hinit hfirst hc hsecond hstep hright hbody
    | breakLoop ht hend =>
      refine stmtReadsBack_jump ht hend (fun _ _ => rfl) fun n previous us => ?_
      rw [Stmt.parse?, bind_run_of_ok (peek_run _), peek_cons, ht]
    | continueLoop ht hend =>
      refine stmtReadsBack_jump ht hend (fun _ _ => rfl) fun n previous us => ?_
      rw [Stmt.parse?, bind_run_of_ok (peek_run _), peek_cons, ht]
    | returnValue ht he hend => exact stmtReadsBack_return ht he hend
    | expr he hend => exact stmtReadsBack_expr he hend
    | declare ht hident hleft hparams hright hopening hbody hclosing =>
      exact ih.declare hts ht hident hleft hparams hright hopening hbody hclosing

/-! ## 7. What is read can be written

A statement that ends in an `if` without an `else` was read in front of another token than `else`,
or the `if` would have taken it.  So the condition on spellings excludes nothing that a parser
returns. -/

theorem Expr.spellableItems_iff {items : List Expr} :
    Expr.spellableItems items = true ↔ ∀ e ∈ items, e.spellable = true := by
  induction items with
  | nil => simp [Expr.spellableItems]
  | cons e items ih => rw [Expr.spellableItems, Bool.and_eq_true, ih, List.forall_mem_cons]

theorem Expr.spellableArgs_of {args : List Arg}
    (h : ∀ name e, .mk name e ∈ args → e.spellable = true) :
    Expr.spellableArgs args = true := by
  induction args with
  | nil => rfl
  | cons arg args ih =>
    obtain ⟨name, e⟩ := arg
    rw [Expr.spellableArgs, Bool.and_eq_true]
    exact ⟨h name e List.mem_cons_self,
      ih fun name' e' he' => h name' e' (List.mem_cons_of_mem _ he')⟩

theorem Expr.spellableParts_of {parts : List Part} (h : ∀ e, .expr e ∈ parts → e.spellable = true) :
    Expr.spellableParts parts = true := by
  induction parts with
  | nil => rfl
  | cons part parts ih =>
    have hparts := ih fun e he => h e (List.mem_cons_of_mem _ he)
    cases part with
    | text t => exact hparts
    | expr e =>
      rw [Expr.spellableParts, Bool.and_eq_true]
      exact ⟨h e List.mem_cons_self, hparts⟩

theorem eq_texts_of_any_isExpr {parts : List Part} (h : parts.any Part.isExpr = false) :
    ∃ texts : List String, parts = texts.map .text := by
  induction parts with
  | nil => exact ⟨[], rfl⟩
  | cons part parts ih =>
    rw [List.any_cons, Bool.or_eq_false_iff] at h
    obtain ⟨texts, rfl⟩ := ih h.2
    cases part with
    | text t => exact ⟨t :: texts, rfl⟩
    | expr e => cases h.1

theorem spellable_literal {parts : List Part} (h : ∀ e, .expr e ∈ parts → e.spellable = true)
    (pos : Position) :
    (Part.literal parts pos).spellable = true := by
  cases hany : parts.any Part.isExpr with
  | true =>
    rw [literal_of_isExpr hany, Expr.spellable, hany, Expr.spellableParts_of h]
    rfl
  | false =>
    obtain ⟨texts, rfl⟩ := eq_texts_of_any_isExpr hany
    rw [literal_texts]
    rfl

theorem all_spellable_of_mem {e : Option Expr} (h : ∀ e' ∈ e, e'.spellable = true) :
    e.all Expr.spellable = true := by
  cases e with
  | none => rfl
  | some e => exact h e rfl

/-- A statement that can be written, in front of a token that it does not take. -/
def Stmt.Readable (s : Stmt) (d : Cursor) : Prop :=
  s.spellable = true ∧ (s.endsOpen = true → d.peek.kind ≠ .keyword .kwElse)

theorem Stmt.spellableMany_of {body : List Stmt} (h : ∀ s ∈ body, ∃ d, s.Readable d) :
    Stmt.spellableMany body = true := by
  induction body with
  | nil => rfl
  | cons s body ih =>
    rw [List.forall_mem_cons] at h
    obtain ⟨⟨d, hs, -⟩, hbody⟩ := h
    rw [Stmt.spellableMany, hs, ih hbody]
    rfl

theorem Stmt.spellableSections_of {sections : List Section}
    (h : ∀ sec ∈ sections, sec.labels ≠ [] ∧ (∀ e, .case e ∈ sec.labels → e.spellable = true) ∧
      ∀ s ∈ sec.body, ∃ d, s.Readable d) : Stmt.spellableSections sections = true := by
  induction sections with
  | nil => rfl
  | cons sec sections ih =>
    rw [List.forall_mem_cons] at h
    obtain ⟨⟨hne, hlabels, hbody⟩, hsections⟩ := h
    obtain ⟨labels, body⟩ := sec
    have hall : labels.all Label.spellable = true := by
      rw [List.all_eq_true]
      intro l hl
      cases l with
      | case e => exact hlabels e hl
      | default => rfl
    have hsome : labels.isEmpty = false := List.isEmpty_eq_false_iff.2 hne
    have hmany : Stmt.spellableMany body = true := Stmt.spellableMany_of hbody
    rw [Stmt.spellableSections, hsome, hall, hmany, ih hsections]
    rfl

/-- What can be written passes from the parts of a tree to the tree. -/
def spellableRules : TreeRules where
  At _ := True
  Place _ := True
  OfExpr e := e.spellable = true
  OfStmt := Stmt.Readable
  advance _ := trivial
  place _ _ := trivial
  pos _ := trivial
  bool _ _ := rfl
  int _ _ := rfl
  float _ _ := rfl
  var _ _ := rfl
  literal _ hparts := spellable_literal hparts _
  list _ hitems := Expr.spellableItems_iff.2 hitems
  unary _ _ he := he
  trailing _ _ he := he
  binary _ _ hl hr := by rw [Expr.spellable, hl, hr]; rfl
  ternary _ hc hx hy := by rw [Expr.spellable, hc, hx, hy]; rfl
  call _ hcallee hargs := by rw [Expr.spellable, hcallee, Expr.spellableArgs_of hargs]; rfl
  subscript _ htarget hindex := by rw [Expr.spellable, htarget, hindex]; rfl
  block _ hbody := ⟨Stmt.spellableMany_of hbody, nofun⟩
  ifThen _ hc hx hnone := ⟨by rw [Stmt.spellable, hc, hx.1]; rfl, fun _ => hnone⟩
  ifElse _ hc hx helse hy := by
    refine ⟨?_, hy.2⟩
    have hclosed : Stmt.endsOpen _ = false := Bool.eq_false_iff.2 fun hopen => hx.2 hopen helse
    rw [Stmt.spellable, hc, hx.1, hclosed, hy.1]
    rfl
  switch _ he hsections := ⟨by rw [Stmt.spellable, he, Stmt.spellableSections_of hsections]; rfl,
    nofun⟩
  whileLoop _ hc hbody := ⟨by rw [Stmt.spellable, hc, hbody.1]; rfl, hbody.2⟩
  forLoop _ hinit hc hstep hbody := by
    refine ⟨?_, hbody.2⟩
    rw [Stmt.spellable, all_spellable_of_mem hinit, all_spellable_of_mem hc,
      all_spellable_of_mem hstep, hbody.1]
    rfl
  breakLoop _ := ⟨rfl, nofun⟩
  continueLoop _ := ⟨rfl, nofun⟩
  returnValue _ he := ⟨all_spellable_of_mem he, nofun⟩
  expr he := ⟨he, nofun⟩
  declare _ hparams hbody := by
    refine ⟨?_, nofun⟩
    have hall : List.all _ Param.spellable = true :=
      List.all_eq_true.2 fun q hq => all_spellable_of_mem (hparams q hq)
    rw [Stmt.spellable, hall, Stmt.spellableMany_of hbody]
    rfl

/-- Parsing a program inverts writing it.  Every program that the parser returns can be written:
every section has a label, and no `else` stands behind an `if` that would take it from its own.
Every program that can be written has a spelling.  And whatever redundant parentheses a spelling
has, the parser returns the program, up to positions. -/
theorem program_parse_inverts_spelling (p : Program) :
    (∀ tokens d, Program.parse tokens = .ok p d → Stmt.spellableMany p = true) ∧
    (Stmt.spellableMany p = true → Joined SpellsStmt p (Stmt.spellMany p)) ∧
    ∀ ts ending, Joined SpellsStmt p ts → (Cursor.ofTokens ending).atEnd = true →
      ∃ p' d, Program.parse (ts ++ ending) = .ok p' d ∧
        Stmt.unplacedMany p' = Stmt.unplacedMany p := by
  refine ⟨fun tokens d hparse => ?_, Stmt.joined_spellMany p, fun ts ending hspells hending => ?_⟩
  · exact Stmt.spellableMany_of (spellableRules.ofStmt_of_parse trivial hparse)
  -- Nothing but the end of the input ends a program.
  · have hends : EndsMany (fun _ => false) ending := by
      intro previous
      cases ending with
      | nil => rfl
      | cons t rest => rw [Bool.or_false]; exact hending
    have hfuel : 4 * ts.length + 5 ≤ Program.parseFuel (ts ++ ending).length := by
      rw [Program.parseFuel, List.length_append]
      omega
    obtain ⟨p', last, heq, hparse⟩ :=
      (stmtsReadUpTo ts.length).many (fun _ _ => rfl) hspells hends none (Nat.le_refl _) hfuel
    exact ⟨p', _, hparse, heq⟩

def branchingProgram : Program :=
  let name (x : String) : Expr := .var x .start
  let assign (x : String) : Stmt := .expr (.binary .assign (name x) (.int 1 .start) .start)
  [.ifElse (name "a") (.whileLoop (name "b")
    (.block [.ifElse (name "c") (assign "x") none .start] .start) .start)
      (some (.switch (name "y")
        [.mk [.case (.int 1 .start), .default] [],
          .mk [.case (.int 2 .start)] [.returnValue none .start]] .start)) .start,
    .declare (.mk "f" [⟨"u", none, .start⟩, ⟨"v", some (.int 2 .start), .start⟩]
      [.forLoop none none (some (.trailing .increment (name "u") .start))
        (.breakLoop .start) .start] .start)]

theorem parse_branchingProgram :
    Stmt.spellableMany branchingProgram = true ∧
      ∃ p' d, Program.parse (Stmt.spellMany branchingProgram ++ [.ofKind .eof]) = .ok p' d ∧
        Stmt.unplacedMany p' = Stmt.unplacedMany branchingProgram := by
  have hspellable : Stmt.spellableMany branchingProgram = true := by decide
  obtain ⟨-, hspells, hparse⟩ := program_parse_inverts_spelling branchingProgram
  exact ⟨hspellable, hparse _ _ (hspells hspellable) rfl⟩

end Scriptlet
