import Scriptlet.Proofs.Cursor
import Scriptlet.Proofs.Spelling
import Scriptlet.Stmt.Parse

/-!
# Parsing an expression inverts writing it

An expression is read from left to right, and its outermost operator is in general not the first one
that is met.  So the induction does not say what a parser returns: it says that reading the tokens
of an expression comes down to extending that expression by what follows (`climbUpTo`).  The operand
on the left of an operator is then read with the operator as what follows, and the operator
continues it.

Two conditions link the levels.  `Opens` says that every operator of the phrase is taken, and
`Closes` that what follows is not taken by a phrase that is still open at its right end.

The parser is the precedence climbing of §4.2 of the specification, and the levels are those of its
list.
-/

namespace Scriptlet
open Scriptlet.Parser Scriptlet.Expr

/-! ## 1. Levels

Which operators a parser takes at a level, against the level at which an expression is written. -/

theorem BinaryOp.assignment_le_level (op : BinaryOp) : Level.assignment ≤ op.level := by
  cases op with
  | arith op => cases op <;> decide
  | relation op => cases op <;> decide
  | update op => exact Nat.le_refl Level.assignment
  | _ => decide

theorem BinaryOp.level_lt_unary (op : BinaryOp) : op.level < Level.unary := by
  cases op with
  | arith op => cases op <;> decide
  | relation op => cases op <;> decide
  | update op => exact (by decide : Level.assignment < Level.unary)
  | _ => decide

theorem assignment_lt_trailing : Level.assignment < Level.trailing := by decide

namespace Expr.Continuation

theorem assignment_le_level (k : Continuation) : Level.assignment ≤ k.level := by
  cases k with
  | binary op => exact op.assignment_le_level
  | step op => exact (by decide : Level.assignment ≤ Level.trailing)
  | _ => decide

theorem level_ne_unary (k : Continuation) : k.level ≠ Level.unary := by
  cases k with
  | binary op => exact Nat.ne_of_lt op.level_lt_unary
  | step op => exact (by decide : Level.trailing ≠ Level.unary)
  | _ => decide

theorem takenAt_iff {k : Continuation} {level : Nat} :
    k.takenAt level = true ↔
      level < k.level ∨ (k.level = Level.assignment ∧ level = Level.assignment) := by
  simp [takenAt]

theorem takenAt_eq_false_iff {k : Continuation} {level : Nat} :
    k.takenAt level = false ↔
      k.level ≤ level ∧ (k.level = Level.assignment → level ≠ Level.assignment) := by
  rw [← Bool.not_eq_true, takenAt_iff, not_or, Nat.not_lt, not_and]

theorem ofKind?_binary (op : BinaryOp) : ofKind? (.symbol op.symbol) = some (.binary op) := by
  have hop := BinaryOp.ofSymbol?_symbol op
  generalize op.symbol = s at hop
  -- No symbol that continues in a way of its own is a binary operator.
  cases s <;> first | exact congrArg (Option.map binary) hop | cases hop

theorem ofKind?_step (op : StepOp) : ofKind? (.symbol op.symbol) = some (.step op) := by
  cases op <;> rfl

end Expr.Continuation

/-- Every operator of a phrase at the level is taken where operators above `min` are wanted. -/
def Opens (level min : Nat) : Prop := ∀ k : Continuation, level ≤ k.level → k.takenAt min = true

theorem Opens.mono {p q min : Nat} (h : Opens p min) (hpq : p ≤ q) : Opens q min :=
  fun k hk => h k (Nat.le_trans hpq hk)

theorem opens_lowest : Opens Level.lowest Level.lowest := by
  intro k _
  exact Continuation.takenAt_iff.2 (.inl k.assignment_le_level)

theorem opens_assignment : Opens Level.assignment Level.assignment := by
  intro k hk
  rw [Continuation.takenAt_iff]
  rcases Nat.lt_or_eq_of_le hk with hlt | heq
  · exact .inl hlt
  · exact .inr ⟨heq.symm, rfl⟩

theorem opens_unary : Opens Level.unary Level.unary := by
  intro k hk
  exact Continuation.takenAt_iff.2 (.inl (Nat.lt_of_le_of_ne hk k.level_ne_unary.symm))

/-- The right operand of an operator is read with the level of the operator. -/
theorem opens_right (op : BinaryOp) : Opens op.rightLevel op.level := by
  unfold BinaryOp.rightLevel
  split
  · next h => rw [h]; exact opens_assignment
  · intro k hk
    exact Continuation.takenAt_iff.2 (.inl hk)

/-- The continuation that the first of some tokens starts. -/
def continuation? (rest : List Token) : Option Continuation :=
  rest.head?.bind fun t => Continuation.ofKind? t.kind

/-- What follows a phrase at the level is not taken by any phrase that is open at its right end. -/
def Closes (level : Nat) (rest : List Token) : Prop :=
  ∀ k, continuation? rest = some k → ∀ min, level ≤ min → Level.assignment ≤ min →
    k.takenAt min = false

theorem Closes.mono {p q : Nat} {rest : List Token} (h : Closes p rest) (hpq : p ≤ q) :
    Closes q rest :=
  fun k hk min hmin => h k hk min (Nat.le_trans hpq hmin)

theorem closes_of_none {level : Nat} {rest : List Token} (h : continuation? rest = none) :
    Closes level rest := by
  intro k hk
  rw [h] at hk
  cases hk

theorem continuation?_cons {t : Token} {kind : TokenKind} (h : t.kind = kind) (rest : List Token) :
    continuation? (t :: rest) = Continuation.ofKind? kind := by
  simp [continuation?, h]

/-- An operator closes its left operand, whose level is that of the operator or higher, and higher
if the operator is an assignment. -/
theorem closes_of_level {k : Continuation} {level : Nat} {rest : List Token}
    (h : continuation? rest = some k) (hle : k.level ≤ level)
    (hassign : k.level = Level.assignment → Level.assignment < level) : Closes level rest := by
  intro k' hk' min hmin _
  obtain rfl : k = k' := Option.some.inj (h.symm.trans hk')
  rw [Continuation.takenAt_eq_false_iff]
  refine ⟨Nat.le_trans hle hmin, fun heq hmin' => ?_⟩
  have hlt := hassign heq
  omega

/-! ## 2. First tokens

What an operand can start with.  An argument that starts with a name and a colon would be read as a
named one. -/

def startsOperand (kind : TokenKind) : Bool :=
  (unaryOf? kind).isSome ||
    match kind with
    | .bool _ | .int _ | .float _ | .ident _ | .strOpen => true
    | .symbol .lparen | .symbol .lbracket => true
    | _ => false

theorem startsOperand_unary (op : UnaryOp) : startsOperand (.symbol op.symbol) = true := by
  cases op with
  | step op => cases op <;> rfl
  | _ => rfl

def StartsPhrase (ts : List Token) : Prop :=
  ∃ t us, ts = t :: us ∧ startsOperand t.kind = true

theorem StartsPhrase.append {ts : List Token} (h : StartsPhrase ts) (us : List Token) :
    StartsPhrase (ts ++ us) := by
  obtain ⟨t, rest, rfl, ht⟩ := h
  exact ⟨t, rest ++ us, rfl, ht⟩

theorem startsPhrase_cons {t : Token} {kind : TokenKind} (h : t.kind = kind)
    (hkind : startsOperand kind = true) (us : List Token) : StartsPhrase (t :: us) :=
  ⟨t, us, rfl, h ▸ hkind⟩

/-- What spells an expression starts with an operand, at the left end of all its operators. -/
theorem Spells.startsPhrase {level : Nat} {e : Expr} {ts : List Token} :
    Spells level e ts → StartsPhrase ts
  | .bool h | .int h | .float h | .var h => startsPhrase_cons h rfl []
  | .str h _ _ | .interpolation h _ _ _ | .list h _ _ | .group h _ _ => startsPhrase_cons h rfl _
  | .unary _ h _ => startsPhrase_cons h (startsOperand_unary _) _
  | .trailing _ h _ | .binary _ h _ _ | .ternary _ h _ _ _ _ | .call _ h _ _ _
  | .subscript _ h _ _ _ =>
    h.startsPhrase.append _
termination_by ts.length
decreasing_by all_goals simp

/-- Some tokens that do not read like the name of an argument: no colon follows an identifier in
front. -/
def Unnamed (ts : List Token) : Prop :=
  ∀ t u us name, ts = t :: u :: us → t.kind = .ident name → u.kind ≠ .symbol .colon

theorem unnamed_of_first {t : Token} {kind : TokenKind} (h : t.kind = kind)
    (hkind : ∀ name, kind ≠ .ident name) (ts : List Token) : Unnamed (t :: ts) := by
  intro t' u us name heq hname
  obtain ⟨rfl, -⟩ := List.cons.inj heq
  exact absurd (h.symm.trans hname) (hkind name)

theorem unnamed_singleton (t : Token) : Unnamed [t] := by
  intro t' u us name heq
  simp at heq

/-- Only the first token behind the phrase can matter, and only if the phrase is a single token. -/
theorem Unnamed.append {ts : List Token} (h : Unnamed ts) (hne : StartsPhrase ts) {w : Token}
    {kind : TokenKind} (hw : w.kind = kind) (hkind : kind ≠ .symbol .colon) (us : List Token) :
    Unnamed (ts ++ w :: us) := by
  obtain ⟨t, rest, rfl, -⟩ := hne
  intro t' u vs name heq hname
  cases rest with
  | nil =>
    obtain ⟨rfl, htail⟩ := List.cons.inj heq
    obtain ⟨rfl, -⟩ := List.cons.inj htail
    exact hw ▸ hkind
  | cons v rest =>
    obtain ⟨rfl, htail⟩ := List.cons.inj heq
    obtain ⟨rfl, -⟩ := List.cons.inj htail
    exact h t v rest name rfl hname

/-- The colon continues nothing, so no operator is written with it. -/
theorem BinaryOp.symbol_ne_colon (op : BinaryOp) : TokenKind.symbol op.symbol ≠ .symbol .colon := by
  intro h
  have hop := Continuation.ofKind?_binary op
  rw [h] at hop
  cases hop

theorem StepOp.symbol_ne_colon (op : StepOp) : TokenKind.symbol op.symbol ≠ .symbol .colon := by
  cases op <;> decide

/-- What spells an expression does not read like the name of an argument. -/
theorem Spells.unnamed {level : Nat} {e : Expr} {ts : List Token} : Spells level e ts → Unnamed ts
  | .bool _ | .int _ | .float _ | .var _ => unnamed_singleton _
  | .str h _ _ | .interpolation h _ _ _ | .list h _ _ | .group h _ _ =>
    unnamed_of_first h (by simp) _
  | .unary _ h _ => unnamed_of_first h (by simp) _
  | .trailing _ h ht => h.unnamed.append h.startsPhrase ht (StepOp.symbol_ne_colon _) _
  | .binary _ h ht _ => h.unnamed.append h.startsPhrase ht (BinaryOp.symbol_ne_colon _) _
  | .ternary _ h ht _ _ _ | .call _ h ht _ _ | .subscript _ h ht _ _ =>
    h.unnamed.append h.startsPhrase ht (by decide) _
termination_by ts.length
decreasing_by all_goals simp

/-! ## 3. Extending an operand -/

theorem ofKind?_peek (previous : Option Token) (rest : List Token) :
    Continuation.ofKind? (Cursor.peek ⟨previous, rest⟩).kind = continuation? rest := by
  cases rest <;> rfl

theorem ne_eof_of_continuation {t : Token} {k : Continuation}
    (h : Continuation.ofKind? t.kind = some k) :
    t.kind ≠ .eof := by
  intro heof
  rw [heof] at h
  cases h

/-- An expression is an operand and what extends it. -/
theorem parse?_of_operand {n level : Nat} {left e : Expr} {c d d' : Cursor}
    (hleft : operand? n c = .ok (some left) d) (hmore : extend n level left d = .ok e d') :
    parse? (n + 1) level c = .ok (some e) d' := by
  rw [parse?, bind_run_of_ok hleft]
  change (extend n level left >>= fun e => pure (some e)) d = _
  rw [bind_run_of_ok hmore]
  rfl

/-- A phrase ends where nothing that follows is taken. -/
theorem extend_stop {n level : Nat} {e : Expr} {previous : Option Token} {rest : List Token}
    (h : ∀ k, continuation? rest = some k → k.takenAt level = false) :
    extend (n + 1) level e ⟨previous, rest⟩ = .ok e ⟨previous, rest⟩ := by
  rw [extend, bind_run_of_ok (peek_run _), ofKind?_peek]
  cases hk : continuation? rest with
  | none => rfl
  | some k =>
    have htaken := h k hk
    simp [htaken]

/-- An operator that is taken continues the phrase. -/
theorem extend_step {n level : Nat} {left longer : Expr} {k : Continuation}
    {previous : Option Token} {t : Token} {rest : List Token} {c : Cursor}
    (hk : Continuation.ofKind? t.kind = some k) (htaken : k.takenAt level = true)
    (hmore : continueWith n left k ⟨some t, rest⟩ = .ok longer c) :
    extend (n + 1) level left ⟨previous, t :: rest⟩ = extend n level longer c := by
  rw [extend, bind_run_of_ok (peek_run _), peek_cons, hk]
  simp only [htaken, if_true]
  rw [bind_run_of_ok (advance_cons previous rest (ne_eof_of_continuation hk)), bind_run_of_ok hmore]

/-! ## 4. Reading back

`Climbs` is what the induction carries: the tokens of a phrase lead to an extension of the phrase.
`ReadsBack` is what it comes to when nothing that follows is taken. -/

/-- Reading the tokens of `e` in front of `rest` comes down to extending `e`, up to positions, by
`rest`, with `spare` fuel left. -/
def Climbs (min : Nat) (e : Expr) (ts rest : List Token) : Prop :=
  ∀ previous fuel spare, 4 * ts.length + spare < fuel →
    ∃ e' last m, spare ≤ m ∧ e'.unplaced = e.unplaced ∧
      ∀ f c, extend m min e' ⟨last, rest⟩ = .ok f c →
        parse? fuel min ⟨previous, ts ++ rest⟩ = .ok (some f) c

/-- Reading the tokens of `e` in front of `rest` gives `e`, up to positions, and leaves `rest`. -/
def ReadsBack (min : Nat) (e : Expr) (ts rest : List Token) : Prop :=
  ∀ previous fuel, 4 * ts.length + 1 < fuel →
    ∃ e' last, e'.unplaced = e.unplaced ∧
      parse? fuel min ⟨previous, ts ++ rest⟩ = .ok (some e') ⟨last, rest⟩

/-- Where nothing that follows is taken, the extension is the phrase itself. -/
theorem Climbs.readsBack {min : Nat} {e : Expr} {ts rest : List Token} (h : Climbs min e ts rest)
    (hstop : ∀ k, continuation? rest = some k → k.takenAt min = false) :
    ReadsBack min e ts rest := by
  intro previous fuel hfuel
  obtain ⟨e', last, m, hm, he, hparse⟩ := h previous fuel 1 hfuel
  obtain ⟨m, rfl⟩ := Nat.exists_eq_add_of_le' hm
  exact ⟨e', last, he, hparse e' ⟨last, rest⟩ (extend_stop hstop)⟩

/-- An operand that is complete by itself climbs, whatever follows. -/
theorem climbs_of_operand {min : Nat} {e : Expr} {ts rest : List Token}
    (h : ∀ previous n, 4 * ts.length ≤ n → ∃ e' last, e'.unplaced = e.unplaced ∧
      operand? n ⟨previous, ts ++ rest⟩ = .ok (some e') ⟨last, rest⟩) : Climbs min e ts rest := by
  intro previous fuel spare hfuel
  obtain ⟨n, rfl⟩ : ∃ n, fuel = n + 1 := ⟨fuel - 1, by omega⟩
  obtain ⟨e', last, he, hoperand⟩ := h previous n (by omega)
  exact ⟨e', last, n, by omega, he, fun f c hmore => parse?_of_operand hoperand hmore⟩

/-- A phrase that is continued by the operator behind it climbs to the longer phrase. -/
theorem Climbs.continue {min : Nat} {left longer : Expr} {ts us rest : List Token} {t : Token}
    {k : Continuation} (h : Climbs min left ts (t :: (us ++ rest)))
    (hk : Continuation.ofKind? t.kind = some k) (htaken : k.takenAt min = true)
    (hmore : ∀ left' n, left'.unplaced = left.unplaced → 4 * us.length + 3 ≤ n →
      ∃ longer' last, longer'.unplaced = longer.unplaced ∧
        continueWith n left' k ⟨some t, us ++ rest⟩ = .ok longer' ⟨last, rest⟩) :
    Climbs min longer (ts ++ t :: us) rest := by
  intro previous fuel spare hfuel
  simp only [List.length_append, List.length_cons] at hfuel
  -- The left part has to spare the fuel that the operator and what is behind it take.
  obtain ⟨left', last, m, hm, hleft, hparse⟩ :=
    h previous fuel (4 * us.length + 4 + spare) (by omega)
  obtain ⟨n, rfl⟩ : ∃ n, m = n + 1 := ⟨m - 1, by omega⟩
  obtain ⟨longer', last', hlonger, hcont⟩ := hmore left' n hleft (by omega)
  refine ⟨longer', last', n, by omega, hlonger, fun f c hext => ?_⟩
  have hstep : extend (n + 1) min left' ⟨last, t :: (us ++ rest)⟩ =
      extend n min longer' ⟨last', rest⟩ :=
    extend_step hk htaken hcont
  have hparsed := hparse f c (hstep.trans hext)
  rwa [List.append_assoc, List.cons_append]

/-! ## 5. Lists, arguments and literals

The phrases in brackets are read back one by one. -/

/-- Complete expressions of at most `bound` tokens are read back in front of what continues no
expression. -/
def ReadBackUpTo (bound : Nat) : Prop :=
  ∀ ⦃e : Expr⦄ ⦃ts rest : List Token⦄, ts.length ≤ bound → Spells Level.lowest e ts →
    continuation? rest = none → ReadsBack Level.lowest e ts rest

/-- The first token of a phrase neither closes a bracket nor ends the input. -/
theorem StartsPhrase.peek {ts : List Token} (h : StartsPhrase ts) (previous : Option Token)
    (rest : List Token) (kind : TokenKind) (hkind : startsOperand kind = false) :
    (Cursor.peek ⟨previous, ts ++ rest⟩).kind ≠ kind := by
  obtain ⟨t, us, rfl, ht⟩ := h
  intro heq
  rw [List.cons_append, peek_cons] at heq
  rw [heq, hkind] at ht
  cases ht

/-- An item without a comma behind it is the last one. -/
theorem listItems_last {n : Nat} {e : Expr} {c d : Cursor}
    (hclose : c.peek.kind ≠ .symbol .rbracket) (hend : c.atEnd = false)
    (hitem : parse? n Level.lowest c = .ok (some e) d) (hcomma : d.peek.kind ≠ .symbol .comma) :
    listItems (n + 1) c = .ok [e] d := by
  rw [listItems, bind_run_of_ok (check_run _ _), bind_run_of_ok (atEnd_run _)]
  simp only [hclose, hend, decide_false, Bool.or_self, Bool.false_eq_true, if_false]
  rw [bind_run_of_ok (require_of_some hitem), bind_run_of_ok (accept_of_ne hcomma)]
  rfl

theorem listItems_more {n : Nat} {e : Expr} {es : List Expr} {last : Option Token} {comma : Token}
    {rest : List Token} {c d : Cursor} (hclose : c.peek.kind ≠ .symbol .rbracket)
    (hend : c.atEnd = false) (hitem : parse? n Level.lowest c = .ok (some e) ⟨last, comma :: rest⟩)
    (hcomma : comma.kind = .symbol .comma) (hmore : listItems n ⟨some comma, rest⟩ = .ok es d) :
    listItems (n + 1) c = .ok (e :: es) d := by
  rw [listItems, bind_run_of_ok (check_run _ _), bind_run_of_ok (atEnd_run _)]
  simp only [hclose, hend, decide_false, Bool.or_self, Bool.false_eq_true, if_false]
  rw [bind_run_of_ok (require_of_some hitem),
    bind_run_of_ok (accept_cons last rest hcomma (by decide))]
  simp only [if_true]
  rw [bind_run_of_ok hmore]
  rfl

theorem arguments_last {n : Nat} {name : Option String} {e : Expr} {c c' d : Cursor}
    (hclose : c.peek.kind ≠ .symbol .rparen) (hend : c.atEnd = false)
    (hname : argumentName c = .ok name c') (hvalue : parse? n Level.lowest c' = .ok (some e) d)
    (hcomma : d.peek.kind ≠ .symbol .comma) :
    Expr.arguments (n + 1) c = .ok [⟨name, e⟩] d := by
  rw [Expr.arguments, bind_run_of_ok (check_run _ _), bind_run_of_ok (atEnd_run _)]
  simp only [hclose, hend, decide_false, Bool.or_self, Bool.false_eq_true, if_false]
  rw [bind_run_of_ok hname, bind_run_of_ok (require_of_some hvalue),
    bind_run_of_ok (accept_of_ne hcomma)]
  rfl

theorem arguments_more {n : Nat} {name : Option String} {e : Expr} {args : List Arg}
    {last : Option Token} {comma : Token} {rest : List Token} {c c' d : Cursor}
    (hclose : c.peek.kind ≠ .symbol .rparen) (hend : c.atEnd = false)
    (hname : argumentName c = .ok name c')
    (hvalue : parse? n Level.lowest c' = .ok (some e) ⟨last, comma :: rest⟩)
    (hcomma : comma.kind = .symbol .comma)
    (hmore : Expr.arguments n ⟨some comma, rest⟩ = .ok args d) :
    Expr.arguments (n + 1) c = .ok (⟨name, e⟩ :: args) d := by
  rw [Expr.arguments, bind_run_of_ok (check_run _ _), bind_run_of_ok (atEnd_run _)]
  simp only [hclose, hend, decide_false, Bool.or_self, Bool.false_eq_true, if_false]
  rw [bind_run_of_ok hname, bind_run_of_ok (require_of_some hvalue),
    bind_run_of_ok (accept_cons last rest hcomma (by decide))]
  simp only [if_true]
  rw [bind_run_of_ok hmore]
  rfl

/-- The name of an argument, in front of the colon. -/
theorem argumentName_named {name : String} {ident colon : Token} {rest : List Token}
    (hident : ident.kind = .ident name) (hcolon : colon.kind = .symbol .colon)
    (previous : Option Token) :
    argumentName ⟨previous, ident :: colon :: rest⟩ = .ok (some name) ⟨some colon, rest⟩ := by
  have hsecond : peekSecond ⟨previous, ident :: colon :: rest⟩ =
      .ok (some (.symbol .colon)) ⟨previous, ident :: colon :: rest⟩ := by
    simp [peekSecond, hcolon]
  rw [argumentName, bind_run_of_ok (peek_run _), bind_run_of_ok hsecond, peek_cons, hident]
  change (advance >>= fun _ => advance >>= fun _ => pure (some name)) _ = _
  rw [bind_run_of_ok (advance_cons _ _ (by rw [hident]; simp)),
    bind_run_of_ok (advance_cons _ _ (by rw [hcolon]; simp))]
  rfl

/-- An argument without a name starts with its value. -/
theorem argumentName_unnamed {ts : List Token} (h : Unnamed ts) (previous : Option Token) :
    argumentName ⟨previous, ts⟩ = .ok none ⟨previous, ts⟩ := by
  have hsecond : peekSecond ⟨previous, ts⟩ =
      .ok ((ts.drop 1).head?.map (·.kind)) ⟨previous, ts⟩ := rfl
  rw [argumentName, bind_run_of_ok (peek_run _), bind_run_of_ok hsecond]
  refine congrFun (?_ : _ = pure none) _
  split
  · next name hident hcolon =>
    match ts, h with
    | [], _ => cases hident
    | [t], _ => cases hcolon
    | t :: u :: us, h => exact absurd (Option.some.inj hcolon) (h t u us name rfl hident)
  · rfl

theorem SpellsArg.startsPhrase {arg : Arg} {ts : List Token}
    (h : SpellsArg (Spells Level.lowest) arg ts) : StartsPhrase ts := by
  cases h with
  | positional he => exact he.startsPhrase
  | named hident _ _ => exact startsPhrase_cons hident rfl _

/-- The items of a list are read back up to the closing bracket. -/
theorem ReadBackUpTo.listItems {bound : Nat} (hread : ReadBackUpTo bound) {items : List Expr}
    {ts : List Token} (h : Separated (Spells Level.lowest) items ts) :
    ∀ (right : Token) (rest : List Token) (previous : Option Token) (n : Nat),
      ts.length ≤ bound → right.kind = .symbol .rbracket → 4 * ts.length + 2 < n →
      ∃ items' last, unplacedItems items' = unplacedItems items ∧
        Expr.listItems n ⟨previous, ts ++ right :: rest⟩ = .ok items' ⟨last, right :: rest⟩ := by
  induction h with
  | nil =>
    intro right rest previous n _ hright hn
    obtain ⟨n, rfl⟩ := Nat.exists_eq_add_of_lt hn
    refine ⟨[], previous, rfl, ?_⟩
    simp [Expr.listItems, bind_run_of_ok (check_run _ _), bind_run_of_ok (atEnd_run _), hright]
  | @single e ts he =>
    intro right rest previous n hts hright hn
    obtain ⟨n, rfl⟩ : ∃ m, n = m + 1 := ⟨n - 1, by omega⟩
    obtain ⟨e', last, heq, hitem⟩ :=
      hread hts he (continuation?_cons hright rest) previous n (by omega)
    have hcomma : (Cursor.peek ⟨last, right :: rest⟩).kind ≠ .symbol .comma := by
      rw [peek_cons, hright]
      decide
    refine ⟨[e'], last, by simp [unplacedItems, heq], ?_⟩
    exact listItems_last (he.startsPhrase.peek _ _ _ rfl)
      (decide_eq_false (he.startsPhrase.peek _ _ _ rfl)) hitem hcomma
  | @cons e e' es ts us comma he hcomma hmore ih =>
    intro right rest previous n hts hright hn
    simp only [List.length_append, List.length_cons] at hts hn
    obtain ⟨n, rfl⟩ : ∃ m, n = m + 1 := ⟨n - 1, by omega⟩
    obtain ⟨first, last, hfirst, hitem⟩ :=
      hread (by omega) he (continuation?_cons hcomma (us ++ right :: rest)) previous n (by omega)
    obtain ⟨others, last', hothers, hrest⟩ :=
      ih right rest (some comma) n (by omega) hright (by omega)
    refine ⟨first :: others, last', by rw [unplacedItems, unplacedItems, hfirst, hothers], ?_⟩
    rw [List.append_assoc, List.cons_append]
    exact listItems_more (he.startsPhrase.peek _ _ _ rfl)
      (decide_eq_false (he.startsPhrase.peek _ _ _ rfl)) hitem hcomma hrest

/-- An argument is read as its name and its value. -/
theorem ReadBackUpTo.argument {bound : Nat} (hread : ReadBackUpTo bound) {arg : Arg}
    {ts : List Token} (h : SpellsArg (Spells Level.lowest) arg ts) {w : Token} {kind : TokenKind}
    (hw : w.kind = kind) (hcolon : kind ≠ .symbol .colon) (hkind : Continuation.ofKind? kind = none)
    (rest : List Token) (previous : Option Token) (n : Nat) (hts : ts.length ≤ bound)
    (hn : 4 * ts.length + 1 < n) :
    ∃ name e e' c last, arg = .mk name e ∧ e'.unplaced = e.unplaced ∧
      argumentName ⟨previous, ts ++ w :: rest⟩ = .ok name c ∧
      parse? n Level.lowest c = .ok (some e') ⟨last, w :: rest⟩ := by
  have hstop : continuation? (w :: rest) = none := by rw [continuation?_cons hw, hkind]
  cases h with
  | @positional e ts he =>
    obtain ⟨e', last, heq, hvalue⟩ := hread hts he hstop previous n hn
    have hunnamed := he.unnamed.append he.startsPhrase hw hcolon rest
    exact ⟨none, e, e', _, last, rfl, heq, argumentName_unnamed hunnamed previous, hvalue⟩
  | @named name e ident colon ts hident hmark he =>
    simp only [List.length_cons] at hts hn
    obtain ⟨e', last, heq, hvalue⟩ := hread (by omega) he hstop (some colon) n (by omega)
    exact ⟨some name, e, e', _, last, rfl, heq, argumentName_named hident hmark previous, hvalue⟩

/-- So are the arguments of a call, with their names. -/
theorem ReadBackUpTo.arguments {bound : Nat} (hread : ReadBackUpTo bound) {args : List Arg}
    {ts : List Token} (h : Separated (SpellsArg (Spells Level.lowest)) args ts) :
    ∀ (right : Token) (rest : List Token) (previous : Option Token) (n : Nat),
      ts.length ≤ bound → right.kind = .symbol .rparen → 4 * ts.length + 2 < n →
      ∃ args' last, unplacedArgs args' = unplacedArgs args ∧
        Expr.arguments n ⟨previous, ts ++ right :: rest⟩ = .ok args' ⟨last, right :: rest⟩ := by
  induction h with
  | nil =>
    intro right rest previous n _ hright hn
    obtain ⟨n, rfl⟩ := Nat.exists_eq_add_of_lt hn
    refine ⟨[], previous, rfl, ?_⟩
    simp [Expr.arguments, bind_run_of_ok (check_run _ _), bind_run_of_ok (atEnd_run _), hright]
  | @single arg ts harg =>
    intro right rest previous n hts hright hn
    obtain ⟨n, rfl⟩ : ∃ m, n = m + 1 := ⟨n - 1, by omega⟩
    obtain ⟨name, e, e', c, last, rfl, heq, hname, hvalue⟩ :=
      hread.argument harg hright (by decide) rfl rest previous n hts (by omega)
    have hcomma : (Cursor.peek ⟨last, right :: rest⟩).kind ≠ .symbol .comma := by
      rw [peek_cons, hright]
      decide
    refine ⟨[.mk name e'], last, by simp [unplacedArgs, heq], ?_⟩
    exact arguments_last (harg.startsPhrase.peek _ _ _ rfl)
      (decide_eq_false (harg.startsPhrase.peek _ _ _ rfl)) hname hvalue hcomma
  | @cons arg arg' args ts us comma harg hcomma hmore ih =>
    intro right rest previous n hts hright hn
    simp only [List.length_append, List.length_cons] at hts hn
    obtain ⟨n, rfl⟩ : ∃ m, n = m + 1 := ⟨n - 1, by omega⟩
    obtain ⟨name, e, e', c, last, rfl, heq, hname, hvalue⟩ :=
      hread.argument harg hcomma (by decide) rfl (us ++ right :: rest) previous n (by omega)
        (by omega)
    obtain ⟨others, last', hothers, hrest⟩ :=
      ih right rest (some comma) n (by omega) hright (by omega)
    refine ⟨.mk name e' :: others, last', by rw [unplacedArgs, unplacedArgs, heq, hothers], ?_⟩
    rw [List.append_assoc, List.cons_append]
    exact arguments_more (harg.startsPhrase.peek _ _ _ rfl)
      (decide_eq_false (harg.startsPhrase.peek _ _ _ rfl)) hname hvalue hcomma hrest

theorem stringParts_text {n : Nat} {text : String} {t : Token} {rest : List Token}
    {parts : List Part} {d : Cursor} (ht : t.kind = .strText text)
    (hmore : stringParts n ⟨some t, rest⟩ = .ok parts d) (previous : Option Token) :
    stringParts (n + 1) ⟨previous, t :: rest⟩ = .ok (.text text :: parts) d := by
  rw [stringParts, bind_run_of_ok (peek_run _), peek_cons, ht]
  change (advance >>= fun _ => stringParts n >>= fun parts => pure (.text text :: parts)) _ = _
  rw [bind_run_of_ok (advance_cons _ _ (by rw [ht]; simp)), bind_run_of_ok hmore]
  rfl

theorem stringParts_expr {n : Nat} {e : Expr} {left right : Token} {last : Option Token}
    {ts rest : List Token} {parts : List Part} {d : Cursor} (hleft : left.kind = .interpOpen)
    (he : parse? n Level.lowest ⟨some left, ts⟩ = .ok (some e) ⟨last, right :: rest⟩)
    (hright : right.kind = .interpClose) (hmore : stringParts n ⟨some right, rest⟩ = .ok parts d)
    (previous : Option Token) :
    stringParts (n + 1) ⟨previous, left :: ts⟩ = .ok (.expr e :: parts) d := by
  rw [stringParts, bind_run_of_ok (peek_run _), peek_cons, hleft]
  simp only []
  rw [bind_run_of_ok (advance_cons _ _ (by rw [hleft]; simp)), bind_run_of_ok (require_of_some he),
    bind_run_of_ok (accept_cons _ _ hright (by simp))]
  simp only [if_true]
  rw [bind_run_of_ok hmore]
  rfl

theorem stringParts_close {n : Nat} {t : Token} (ht : t.kind = .strClose) (previous : Option Token)
    (rest : List Token) : stringParts (n + 1) ⟨previous, t :: rest⟩ = .ok [] ⟨some t, rest⟩ := by
  rw [stringParts, bind_run_of_ok (peek_run _), peek_cons, ht]
  simp only []
  rw [bind_run_of_ok (advance_cons _ _ (by rw [ht]; simp))]
  rfl

/-- So are the parts of a literal, up to and with the closing quote. -/
theorem ReadBackUpTo.stringParts {bound : Nat} (hread : ReadBackUpTo bound) {parts : List Part}
    {ts : List Token} (h : Joined (SpellsPart (Spells Level.lowest)) parts ts) :
    ∀ (right : Token) (rest : List Token) (previous : Option Token) (n : Nat),
      ts.length ≤ bound → right.kind = .strClose → 4 * ts.length < n →
      ∃ parts', unplacedParts parts' = unplacedParts parts ∧
        Expr.stringParts n ⟨previous, ts ++ right :: rest⟩ = .ok parts' ⟨some right, rest⟩ := by
  induction h with
  | nil =>
    intro right rest previous n _ hright hn
    obtain ⟨n, rfl⟩ := Nat.exists_eq_add_of_lt hn
    exact ⟨[], rfl, stringParts_close hright previous rest⟩
  | cons hpart _ ih =>
    intro right rest previous n hts hright hn
    obtain ⟨n, rfl⟩ : ∃ m, n = m + 1 := ⟨n - 1, by omega⟩
    simp only [List.length_append] at hts hn
    cases hpart with
    | @text text t ht =>
      simp only [List.length_cons, List.length_nil] at hts hn
      obtain ⟨others, hothers, hrest⟩ := ih right rest (some t) n (by omega) hright (by omega)
      exact ⟨.text text :: others, by rw [unplacedParts, unplacedParts, hothers],
        stringParts_text ht hrest previous⟩
    | @expr e left close us hleft hclose he =>
      simp only [List.length_cons, List.length_append, List.length_nil] at hts hn
      obtain ⟨others, hothers, hrest⟩ := ih right rest (some close) n (by omega) hright (by omega)
      obtain ⟨e', last, heq, hvalue⟩ :=
        hread (by omega) he (continuation?_cons hclose _) (some left) n (by omega)
      refine ⟨.expr e' :: others, by rw [unplacedParts, unplacedParts, heq, hothers], ?_⟩
      simp only [List.cons_append, List.append_assoc, List.nil_append]
      exact stringParts_expr hleft hvalue hclose hrest previous

/-! ### Literals -/

theorem any_isExpr_unplacedParts (parts : List Part) :
    (unplacedParts parts).any Part.isExpr = parts.any Part.isExpr := by
  induction parts with
  | nil => rfl
  | cons part parts ih =>
    cases part with
    | text t => simpa [unplacedParts, Part.isExpr] using ih
    | expr e => simp [unplacedParts, Part.isExpr]

def Part.text? : Part → Option String
  | .text t => some t
  | .expr _ => none

theorem literal_eq (parts : List Part) (pos : Position) :
    Part.literal parts pos =
      match parts.mapM Part.text? with
      | some texts => .str (String.join texts) pos
      | none => .interpolation parts pos := rfl

/-- A literal with an embedded expression is an interpolation. -/
theorem literal_of_isExpr {parts : List Part} (h : parts.any Part.isExpr = true) (pos : Position) :
    Part.literal parts pos = .interpolation parts pos := by
  have hnone : parts.mapM Part.text? = none := by
    induction parts with
    | nil => cases h
    | cons part parts ih =>
      cases part with
      | text t => simp [ih (by simpa [Part.isExpr] using h)]
      | expr e => simp [Part.text?]
  rw [literal_eq, hnone]

/-- Texts alone make a plain string. -/
theorem literal_texts (texts : List String) (pos : Position) :
    Part.literal (texts.map .text) pos = .str (String.join texts) pos := by
  have hsome : (texts.map Part.text).mapM Part.text? = some texts := by
    induction texts with
    | nil => rfl
    | cons t texts ih => simp [Part.text?, ih]
  rw [literal_eq, hsome]

/-- Parts without an embedded expression are texts. -/
theorem eq_texts_of_unplacedParts {parts : List Part} {texts : List String}
    (h : unplacedParts parts = texts.map .text) : parts = texts.map .text := by
  induction parts generalizing texts with
  | nil => exact h
  | cons part parts ih =>
    cases texts with
    | nil => cases part <;> cases h
    | cons t texts =>
      cases part with
      | text t' =>
        obtain ⟨hhead, htail⟩ := List.cons.inj h
        rw [ih htail, hhead]
        rfl
      | expr e => cases (List.cons.inj h).1

theorem unplacedParts_texts (texts : List String) :
    unplacedParts (texts.map .text) = texts.map .text := by
  induction texts with
  | nil => rfl
  | cons t texts ih => rw [List.map_cons, unplacedParts, ih]

theorem joined_texts {texts : List String} {ts : List Token}
    (h : ts.map (·.kind) = texts.map .strText) :
    Joined (SpellsPart (Spells Level.lowest)) (texts.map .text) ts := by
  induction texts generalizing ts with
  | nil =>
    rw [List.map_eq_nil_iff.1 h]
    exact .nil
  | cons text texts ih =>
    obtain ⟨t, us, rfl, ht, hus⟩ := List.map_eq_cons_iff.1 h
    exact .cons (.text ht) (ih hus)

/-! ## 6. Operands

One equation for each form of operand, and one for each continuation: what the parser does in front
of known tokens. -/

theorem operand?_unary {n : Nat} {op : UnaryOp} {e : Expr} {t : Token} {rest : List Token}
    {d : Cursor} (ht : t.kind = .symbol op.symbol)
    (he : parse? n Level.unary ⟨some t, rest⟩ = .ok (some e) d) (previous : Option Token) :
    operand? (n + 1) ⟨previous, t :: rest⟩ = .ok (some (.unary op e t.position)) d := by
  have hop : unaryOf? t.kind = some op := by
    rw [ht]
    exact UnaryOp.ofSymbol?_symbol op
  refine (bind_run_of_ok (peek_run _) _).trans ?_
  rw [peek_cons, hop]
  refine (bind_run_of_ok (advance_cons _ _ (by rw [ht]; simp)) _).trans ?_
  exact bind_run_of_ok (require_of_some he) _

theorem operand?_group {n : Nat} {e : Expr} {left right : Token} {last : Option Token}
    {ts rest : List Token} (hleft : left.kind = .symbol .lparen)
    (he : parse? n Level.lowest ⟨some left, ts⟩ = .ok (some e) ⟨last, right :: rest⟩)
    (hright : right.kind = .symbol .rparen) (previous : Option Token) :
    operand? (n + 1) ⟨previous, left :: ts⟩ = .ok (some e) ⟨some right, rest⟩ := by
  have hop : unaryOf? left.kind = none := by rw [hleft]; rfl
  refine (bind_run_of_ok (peek_run _) _).trans ?_
  rw [peek_cons, hop, hleft]
  refine (bind_run_of_ok (advance_cons _ _ (by rw [hleft]; simp)) _).trans ?_
  refine (bind_run_of_ok (require_of_some he) _).trans ?_
  exact bind_run_of_ok (expect_cons _ _ hright) _

theorem operand?_list {n : Nat} {items : List Expr} {left right : Token} {last : Option Token}
    {ts rest : List Token} (hleft : left.kind = .symbol .lbracket)
    (hitems : listItems n ⟨some left, ts⟩ = .ok items ⟨last, right :: rest⟩)
    (hright : right.kind = .symbol .rbracket) (previous : Option Token) :
    operand? (n + 1) ⟨previous, left :: ts⟩ =
      .ok (some (.list items left.position)) ⟨some right, rest⟩ := by
  have hop : unaryOf? left.kind = none := by rw [hleft]; rfl
  refine (bind_run_of_ok (peek_run _) _).trans ?_
  rw [peek_cons, hop, hleft]
  refine (bind_run_of_ok (advance_cons _ _ (by rw [hleft]; simp)) _).trans ?_
  refine (bind_run_of_ok hitems _).trans ?_
  exact bind_run_of_ok (expect_cons _ _ hright) _

theorem operand?_string {n : Nat} {parts : List Part} {left : Token} {ts : List Token} {d : Cursor}
    (hleft : left.kind = .strOpen) (hparts : stringParts n ⟨some left, ts⟩ = .ok parts d)
    (previous : Option Token) :
    operand? (n + 1) ⟨previous, left :: ts⟩ = .ok (some (Part.literal parts left.position)) d := by
  have hop : unaryOf? left.kind = none := by rw [hleft]; rfl
  refine (bind_run_of_ok (peek_run _) _).trans ?_
  rw [peek_cons, hop, hleft]
  refine (bind_run_of_ok (advance_cons _ _ (by rw [hleft]; simp)) _).trans ?_
  exact bind_run_of_ok hparts _

def atom? (pos : Position) : TokenKind → Option Expr
  | .bool b => some (.bool b pos)
  | .int n => some (.int n pos)
  | .float x => some (.float x pos)
  | .ident name => some (.var name pos)
  | _ => none

/-- Literals without parts and names are operands of one token. -/
theorem operand?_atom {n : Nat} {e : Expr} {t : Token} (h : atom? t.position t.kind = some e)
    (previous : Option Token) (rest : List Token) :
    operand? (n + 1) ⟨previous, t :: rest⟩ = .ok (some e) ⟨some t, rest⟩ := by
  refine (bind_run_of_ok (peek_run _) _).trans ?_
  rw [peek_cons]
  cases hkind : t.kind <;> rw [hkind] at h <;> cases h <;> simp only [unaryOf?] <;>
    rw [bind_run_of_ok (advance_cons _ _ (by rw [hkind]; simp))] <;> rfl

theorem exists_atom {e : Expr} {kind : TokenKind} (h : atom? .start kind = some e.unplaced)
    (pos : Position) : ∃ e', e'.unplaced = e.unplaced ∧ atom? pos kind = some e' := by
  cases kind <;> cases h' : e.unplaced <;> rw [h'] at h <;> cases h <;> exact ⟨_, rfl, rfl⟩

theorem climbs_atom {min : Nat} {e : Expr} {t : Token} (h : atom? .start t.kind = some e.unplaced)
    (rest : List Token) : Climbs min e [t] rest := by
  apply climbs_of_operand
  intro previous n hn
  obtain ⟨m, rfl⟩ : ∃ m, n = m + 1 := ⟨n - 1, by simp only [List.length_singleton] at hn; omega⟩
  obtain ⟨e', heq, hatom⟩ := exists_atom h t.position
  exact ⟨e', some t, heq, operand?_atom hatom previous rest⟩

/-! ### Continuations -/

theorem continueWith_binary {n : Nat} {op : BinaryOp} {left right : Expr} {c d : Cursor}
    (h : parse? n op.level c = .ok (some right) d) :
    continueWith (n + 1) left (.binary op) c = .ok (.binary op left right left.pos) d := by
  rw [continueWith, bind_run_of_ok (require_of_some h)]
  rfl

theorem continueWith_ternary {n : Nat} {left x y : Expr} {colon : Token} {last : Option Token}
    {rest : List Token} {c d : Cursor}
    (hx : parse? n Level.lowest c = .ok (some x) ⟨last, colon :: rest⟩)
    (hcolon : colon.kind = .symbol .colon)
    (hy : parse? n Level.assignment ⟨some colon, rest⟩ = .ok (some y) d) :
    continueWith (n + 1) left .ternary c = .ok (.ternary left x y left.pos) d := by
  rw [continueWith, bind_run_of_ok (require_of_some hx), bind_run_of_ok (expect_cons _ _ hcolon),
    bind_run_of_ok (require_of_some hy)]
  rfl

theorem continueWith_call {n : Nat} {left : Expr} {args : List Arg} {right : Token}
    {last : Option Token} {rest : List Token} {c : Cursor}
    (h : Expr.arguments n c = .ok args ⟨last, right :: rest⟩)
    (hright : right.kind = .symbol .rparen) :
    continueWith (n + 1) left .call c = .ok (.call left args left.pos) ⟨some right, rest⟩ := by
  rw [continueWith, bind_run_of_ok h, bind_run_of_ok (expect_cons _ _ hright)]
  rfl

theorem continueWith_subscript {n : Nat} {left index : Expr} {right : Token} {last : Option Token}
    {rest : List Token} {c : Cursor}
    (h : parse? n Level.lowest c = .ok (some index) ⟨last, right :: rest⟩)
    (hright : right.kind = .symbol .rbracket) :
    continueWith (n + 1) left .subscript c =
      .ok (.subscript left index left.pos) ⟨some right, rest⟩ := by
  rw [continueWith, bind_run_of_ok (require_of_some h), bind_run_of_ok (expect_cons _ _ hright)]
  rfl

/-! ## 7. The round trip

The induction is on the number of tokens, as every phrase inside another has fewer.  Each lemma
about `ClimbUpTo` is the case of one form of expressions. -/

def ClimbUpTo (bound : Nat) : Prop :=
  ∀ ⦃ts : List Token⦄, ts.length ≤ bound → ∀ ⦃level min : Nat⦄ ⦃e : Expr⦄ ⦃rest : List Token⦄,
    Spells level e ts → Opens level min → Closes level rest → Climbs min e ts rest

/-- A complete expression climbs from the lowest level, where nothing that follows continues it. -/
theorem ClimbUpTo.readBack {bound : Nat} (ih : ClimbUpTo bound) : ReadBackUpTo bound := by
  intro e ts rest hts h hrest
  refine (ih hts h opens_lowest (closes_of_none hrest)).readsBack fun k hk => ?_
  rw [hrest] at hk
  cases hk

theorem BinaryOp.level_le_leftLevel (op : BinaryOp) : op.level ≤ op.leftLevel := by
  unfold leftLevel
  split <;> omega

theorem BinaryOp.assignment_lt_leftLevel {op : BinaryOp} (h : op.level = Level.assignment) :
    Level.assignment < op.leftLevel := by
  unfold leftLevel
  rw [if_pos h]
  exact Nat.lt_succ_self _

theorem BinaryOp.level_le_rightLevel (op : BinaryOp) : op.level ≤ op.rightLevel := by
  unfold rightLevel
  split <;> omega

section Cases

variable {bound level min : Nat} {e : Expr} {pos : Position} {left right t : Token}
  {ts us rest : List Token}

/-- A literal is read back part by part. -/
theorem ClimbUpTo.literal (ih : ClimbUpTo bound) {parts : List Part}
    (hts : (left :: (ts ++ [right])).length ≤ bound + 1) (hleft : left.kind = .strOpen)
    (hparts : Joined (SpellsPart (Spells Level.lowest)) parts ts) (hright : right.kind = .strClose)
    (hliteral : ∀ parts' pos, unplacedParts parts' = unplacedParts parts →
      (Part.literal parts' pos).unplaced = e.unplaced) :
    Climbs min e (left :: (ts ++ [right])) rest := by
  apply climbs_of_operand
  intro previous n hn
  simp only [List.length_cons, List.length_append, List.length_nil] at hts hn
  obtain ⟨m, rfl⟩ : ∃ m, n = m + 1 := ⟨n - 1, by omega⟩
  obtain ⟨parts', heq, hread⟩ :=
    ih.readBack.stringParts hparts right rest (some left) m (by omega) hright (by omega)
  refine ⟨Part.literal parts' left.position, some right, hliteral parts' _ heq, ?_⟩
  simp only [List.cons_append, List.append_assoc, List.nil_append]
  exact operand?_string hleft hread previous

theorem ClimbUpTo.str (ih : ClimbUpTo bound) {texts : List String}
    (hts : (left :: (ts ++ [right])).length ≤ bound + 1) (hleft : left.kind = .strOpen)
    (htexts : ts.map (·.kind) = texts.map .strText) (hright : right.kind = .strClose) :
    Climbs min (.str (String.join texts) pos) (left :: (ts ++ [right])) rest := by
  refine ih.literal hts hleft (joined_texts htexts) hright fun parts' pos' heq => ?_
  rw [unplacedParts_texts] at heq
  rw [eq_texts_of_unplacedParts heq, literal_texts]
  rfl

theorem ClimbUpTo.interpolation (ih : ClimbUpTo bound) {parts : List Part}
    (hts : (left :: (ts ++ [right])).length ≤ bound + 1) (hleft : left.kind = .strOpen)
    (hparts : Joined (SpellsPart (Spells Level.lowest)) parts ts)
    (hexpr : parts.any Part.isExpr = true) (hright : right.kind = .strClose) :
    Climbs min (.interpolation parts pos) (left :: (ts ++ [right])) rest := by
  refine ih.literal hts hleft hparts hright fun parts' pos' heq => ?_
  have hexpr' : parts'.any Part.isExpr = true := by
    rw [← any_isExpr_unplacedParts, heq, any_isExpr_unplacedParts, hexpr]
  rw [literal_of_isExpr hexpr', unplaced_interpolation, unplaced_interpolation, heq]

theorem ClimbUpTo.list (ih : ClimbUpTo bound) {items : List Expr}
    (hts : (left :: (ts ++ [right])).length ≤ bound + 1) (hleft : left.kind = .symbol .lbracket)
    (hitems : Separated (Spells Level.lowest) items ts) (hright : right.kind = .symbol .rbracket) :
    Climbs min (.list items pos) (left :: (ts ++ [right])) rest := by
  apply climbs_of_operand
  intro previous n hn
  simp only [List.length_cons, List.length_append, List.length_nil] at hts hn
  obtain ⟨m, rfl⟩ : ∃ m, n = m + 1 := ⟨n - 1, by omega⟩
  obtain ⟨items', last, heq, hlist⟩ :=
    ih.readBack.listItems hitems right rest (some left) m (by omega) hright (by omega)
  refine ⟨.list items' left.position, some right, by rw [unplaced_list, unplaced_list, heq], ?_⟩
  simp only [List.cons_append, List.append_assoc, List.nil_append]
  exact operand?_list hleft hlist hright previous

theorem ClimbUpTo.group (ih : ClimbUpTo bound) (hts : (left :: (ts ++ [right])).length ≤ bound + 1)
    (hleft : left.kind = .symbol .lparen) (he : Spells Level.lowest e ts)
    (hright : right.kind = .symbol .rparen) :
    Climbs min e (left :: (ts ++ [right])) rest := by
  apply climbs_of_operand
  intro previous n hn
  simp only [List.length_cons, List.length_append, List.length_nil] at hts hn
  obtain ⟨m, rfl⟩ : ∃ m, n = m + 1 := ⟨n - 1, by omega⟩
  obtain ⟨e', last, heq, hinner⟩ :=
    ih.readBack (by omega) he (continuation?_cons hright rest) (some left) m (by omega)
  refine ⟨e', some right, heq, ?_⟩
  simp only [List.cons_append, List.append_assoc, List.nil_append]
  exact operand?_group hleft hinner hright previous

/-- The operand of a unary operator is closed by what closes the operation. -/
theorem ClimbUpTo.unary (ih : ClimbUpTo bound) {op : UnaryOp} (hts : (t :: ts).length ≤ bound + 1)
    (hcloses : Closes level rest) (hlevel : level ≤ Level.unary) (ht : t.kind = .symbol op.symbol)
    (he : Spells Level.unary e ts) : Climbs min (.unary op e pos) (t :: ts) rest := by
  apply climbs_of_operand
  intro previous n hn
  simp only [List.length_cons] at hts hn
  obtain ⟨m, rfl⟩ : ∃ m, n = m + 1 := ⟨n - 1, by omega⟩
  have hinner := ih (by omega) he opens_unary (hcloses.mono hlevel)
  obtain ⟨e', last, heq, hoperand⟩ := hinner.readsBack
    (fun k hk => hcloses k hk Level.unary hlevel (by decide)) (some t) m (by omega)
  refine ⟨.unary op e' t.position, last, by rw [unplaced_unary, unplaced_unary, heq], ?_⟩
  exact operand?_unary ht hoperand previous

/-- An operator continues its left operand, which is at the level of the operator or higher. -/
theorem ClimbUpTo.continued (ih : ClimbUpTo bound) {p : Nat} {longer : Expr} (k : Continuation)
    (hts : (ts ++ t :: us).length ≤ bound + 1) (hopens : Opens level min) (he : Spells p e ts)
    (hk : Continuation.ofKind? t.kind = some k) (hlevel : level ≤ k.level) (hle : k.level ≤ p)
    (hassign : k.level = Level.assignment → Level.assignment < p)
    (hmore : ∀ left' n, left'.unplaced = e.unplaced → 4 * us.length + 3 ≤ n →
      ∃ longer' last, longer'.unplaced = longer.unplaced ∧
        continueWith n left' k ⟨some t, us ++ rest⟩ = .ok longer' ⟨last, rest⟩) :
    Climbs min longer (ts ++ t :: us) rest := by
  simp only [List.length_append, List.length_cons] at hts
  have hcont : continuation? (t :: (us ++ rest)) = some k := by rw [continuation?_cons rfl, hk]
  have hclimbs := ih (by omega) he (hopens.mono (Nat.le_trans hlevel hle))
    (closes_of_level hcont hle hassign)
  exact hclimbs.continue hk (hopens k hlevel) hmore

theorem ClimbUpTo.trailing (ih : ClimbUpTo bound) {op : StepOp}
    (hts : (ts ++ [t]).length ≤ bound + 1) (hopens : Opens level min)
    (hlevel : level ≤ Level.trailing) (he : Spells Level.trailing e ts)
    (ht : t.kind = .symbol op.symbol) : Climbs min (.trailing op e pos) (ts ++ [t]) rest := by
  refine ih.continued (.step op) hts hopens he (by rw [ht, Continuation.ofKind?_step]) hlevel
    (Nat.le_refl _) (fun _ => assignment_lt_trailing) fun left' n hleft hn => ?_
  obtain ⟨m, rfl⟩ : ∃ m, n = m + 1 := ⟨n - 1, by omega⟩
  exact ⟨.trailing op left' left'.pos, some t, by rw [unplaced_trailing, unplaced_trailing, hleft],
    rfl⟩

/-- What follows a binary operation is not taken by its right operand either. -/
theorem ClimbUpTo.binary (ih : ClimbUpTo bound) {op : BinaryOp} {r : Expr}
    (hts : (ts ++ t :: us).length ≤ bound + 1) (hopens : Opens level min)
    (hcloses : Closes level rest) (hlevel : level ≤ op.level) (he : Spells op.leftLevel e ts)
    (ht : t.kind = .symbol op.symbol) (hr : Spells op.rightLevel r us) :
    Climbs min (.binary op e r pos) (ts ++ t :: us) rest := by
  refine ih.continued (.binary op) hts hopens he (by rw [ht, Continuation.ofKind?_binary]) hlevel
    op.level_le_leftLevel BinaryOp.assignment_lt_leftLevel fun left' n hleft hn => ?_
  simp only [List.length_append, List.length_cons] at hts
  obtain ⟨m, rfl⟩ : ∃ m, n = m + 1 := ⟨n - 1, by omega⟩
  have hright := ih (by omega) hr (opens_right op)
    (hcloses.mono (Nat.le_trans hlevel op.level_le_rightLevel))
  obtain ⟨r', last, heq, hparse⟩ := hright.readsBack
    (fun k hk => hcloses k hk op.level hlevel op.assignment_le_level) (some t) m (by omega)
  exact ⟨.binary op left' r' left'.pos, last, by rw [unplaced_binary, unplaced_binary, hleft, heq],
    continueWith_binary hparse⟩

theorem ClimbUpTo.ternary (ih : ClimbUpTo bound) {x y : Expr} {colon : Token} {vs : List Token}
    (hts : (ts ++ t :: (us ++ colon :: vs)).length ≤ bound + 1) (hopens : Opens level min)
    (hcloses : Closes level rest) (hlevel : level ≤ Level.assignment)
    (he : Spells (Level.assignment + 1) e ts) (ht : t.kind = .symbol .question)
    (hx : Spells Level.lowest x us) (hcolon : colon.kind = .symbol .colon)
    (hy : Spells Level.assignment y vs) :
    Climbs min (.ternary e x y pos) (ts ++ t :: (us ++ colon :: vs)) rest := by
  refine ih.continued .ternary hts hopens he (by rw [ht]; rfl) hlevel (Nat.le_succ _)
    (fun _ => Nat.lt_succ_self _) fun left' n hleft hn => ?_
  simp only [List.length_append, List.length_cons] at hts hn
  obtain ⟨m, rfl⟩ : ∃ m, n = m + 1 := ⟨n - 1, by omega⟩
  obtain ⟨x', last, hx', hthen⟩ := ih.readBack (by omega) hx
    (continuation?_cons hcolon (vs ++ rest)) (some t) m (by omega)
  -- The branch in the middle is closed by the colon, and the last one by what closes the whole.
  have helse := ih (by omega) hy opens_assignment (hcloses.mono hlevel)
  obtain ⟨y', last', hy', hparse⟩ := helse.readsBack
    (fun k hk => hcloses k hk Level.assignment hlevel (Nat.le_refl _)) (some colon) m (by omega)
  refine ⟨.ternary left' x' y' left'.pos, last',
    by rw [unplaced_ternary, unplaced_ternary, hleft, hx', hy'], ?_⟩
  rw [List.append_assoc, List.cons_append]
  exact continueWith_ternary hthen hcolon hparse

theorem ClimbUpTo.call (ih : ClimbUpTo bound) {args : List Arg}
    (hts : (ts ++ left :: (us ++ [right])).length ≤ bound + 1) (hopens : Opens level min)
    (hlevel : level ≤ Level.trailing) (he : Spells Level.trailing e ts)
    (hleft : left.kind = .symbol .lparen)
    (hargs : Separated (SpellsArg (Spells Level.lowest)) args us)
    (hright : right.kind = .symbol .rparen) :
    Climbs min (.call e args pos) (ts ++ left :: (us ++ [right])) rest := by
  refine ih.continued .call hts hopens he (by rw [hleft]; rfl) hlevel (Nat.le_refl _)
    (fun _ => assignment_lt_trailing) fun callee' n hcallee hn => ?_
  simp only [List.length_append, List.length_cons, List.length_nil] at hts hn
  obtain ⟨m, rfl⟩ : ∃ m, n = m + 1 := ⟨n - 1, by omega⟩
  obtain ⟨args', last, heq, hparse⟩ :=
    ih.readBack.arguments hargs right rest (some left) m (by omega) hright (by omega)
  refine ⟨.call callee' args' callee'.pos, some right,
    by rw [unplaced_call, unplaced_call, hcallee, heq], ?_⟩
  rw [List.append_assoc, List.cons_append, List.nil_append]
  exact continueWith_call hparse hright

theorem ClimbUpTo.subscript (ih : ClimbUpTo bound) {index : Expr}
    (hts : (ts ++ left :: (us ++ [right])).length ≤ bound + 1) (hopens : Opens level min)
    (hlevel : level ≤ Level.trailing) (he : Spells Level.trailing e ts)
    (hleft : left.kind = .symbol .lbracket) (hindex : Spells Level.lowest index us)
    (hright : right.kind = .symbol .rbracket) :
    Climbs min (.subscript e index pos) (ts ++ left :: (us ++ [right])) rest := by
  refine ih.continued .subscript hts hopens he (by rw [hleft]; rfl) hlevel (Nat.le_refl _)
    (fun _ => assignment_lt_trailing) fun target' n htarget hn => ?_
  simp only [List.length_append, List.length_cons, List.length_nil] at hts hn
  obtain ⟨m, rfl⟩ : ∃ m, n = m + 1 := ⟨n - 1, by omega⟩
  obtain ⟨index', last, heq, hparse⟩ :=
    ih.readBack (by omega) hindex (continuation?_cons hright rest) (some left) m (by omega)
  refine ⟨.subscript target' index' target'.pos, some right,
    by rw [unplaced_subscript, unplaced_subscript, htarget, heq], ?_⟩
  rw [List.append_assoc, List.cons_append, List.nil_append]
  exact continueWith_subscript hparse hright

end Cases

/-- Reading the tokens of an expression comes down to extending the expression by what follows. -/
theorem climbUpTo (bound : Nat) : ClimbUpTo bound := by
  induction bound with
  | zero =>
    intro ts hts level min e rest h
    obtain ⟨t, us, rfl, -⟩ := h.startsPhrase
    simp at hts
  | succ bound ih =>
    intro ts hts level min e rest h hopens hcloses
    cases h with
    | bool ht => exact climbs_atom (by rw [ht]; rfl) rest
    | int ht => exact climbs_atom (by rw [ht]; rfl) rest
    | float ht => exact climbs_atom (by rw [ht]; rfl) rest
    | var ht => exact climbs_atom (by rw [ht]; rfl) rest
    | str hleft htexts hright => exact ih.str hts hleft htexts hright
    | interpolation hleft hparts hexpr hright =>
      exact ih.interpolation hts hleft hparts hexpr hright
    | list hleft hitems hright => exact ih.list hts hleft hitems hright
    | group hleft he hright => exact ih.group hts hleft he hright
    | unary hlevel ht he => exact ih.unary hts hcloses hlevel ht he
    | trailing hlevel he ht => exact ih.trailing hts hopens hlevel he ht
    | binary hlevel he ht hr => exact ih.binary hts hopens hcloses hlevel he ht hr
    | ternary hlevel he ht hx hcolon hy =>
      exact ih.ternary hts hopens hcloses hlevel he ht hx hcolon hy
    | call hlevel he hleft hargs hright => exact ih.call hts hopens hlevel he hleft hargs hright
    | subscript hlevel he hleft hindex hright =>
      exact ih.subscript hts hopens hlevel he hleft hindex hright

/-- Parsing an expression inverts writing it.  Every expression has a spelling, with parentheses
where the levels of its operators ask for them.  Whatever redundant parentheses a spelling has, and
whatever follows it that does not continue an expression, the parser returns the expression, up to
positions, and leaves what follows. -/
theorem parse?_inverts_spelling (e : Expr) (he : e.spellable = true) :
    Spells Level.lowest e (e.spell Level.lowest) ∧
    ∀ (ts rest : List Token) (previous : Option Token) (fuel : Nat),
      Spells Level.lowest e ts → continuation? rest = none → Program.parseFuel ts.length ≤ fuel →
      ∃ e' last, parse? fuel Level.lowest ⟨previous, ts ++ rest⟩ = .ok (some e') ⟨last, rest⟩ ∧
        e'.unplaced = e.unplaced := by
  refine ⟨e.spells_spell Level.lowest he, fun ts rest previous fuel hspells hrest hfuel => ?_⟩
  have hread : ReadsBack Level.lowest e ts rest :=
    (climbUpTo ts.length).readBack (Nat.le_refl _) hspells hrest
  unfold Program.parseFuel at hfuel
  obtain ⟨e', last, heq, hparse⟩ := hread previous fuel (by omega)
  exact ⟨e', last, hparse, heq⟩

/-- The expression `-(a + b)[0] = f(x: c)`, whose sum needs parentheses. -/
def negatedElement : Expr :=
  let name (x : String) : Expr := .var x .start
  let sum : Expr := .binary (.arith .add) (name "a") (name "b") .start
  .binary .assign (.unary .neg (.subscript sum (.int 0 .start) .start) .start)
    (.call (name "f") [.mk (some "x") (name "c")] .start) .start

theorem parse?_negatedElement :
    negatedElement.spellable = true ∧
      ∃ e' last, parse? 200 Level.lowest
        ⟨none, negatedElement.spell Level.lowest ++ [.ofKind (.symbol .semicolon)]⟩ =
          .ok (some e') ⟨last, [.ofKind (.symbol .semicolon)]⟩ ∧
        e'.unplaced = negatedElement.unplaced := by
  have he : negatedElement.spellable = true := by decide
  obtain ⟨hspells, hparse⟩ := parse?_inverts_spelling negatedElement he
  exact ⟨he, hparse _ _ none 200 hspells rfl (by decide)⟩

end Scriptlet
