import Scriptlet.Proofs.ParserDiscipline
import Scriptlet.Proofs.ParserLoops
import Scriptlet.Proofs.ParserRefinement

/-!
# The parser ends and moves on

A parser only ever consumes tokens in front of it, and never the mark of the end (`Cursor.Reaches`).
A phrase that is found has at least one token (`Cursor.Passes`), and so has every turn of a loop.
So the tokens that are left bound the calls that are open at a time: eight for each token are
enough, since no more than five calls are made before one of them consumes a token.  `Ends` carries
both facts through a parser: where it stops, and that it does stop unless the fuel is short for the
tokens that are left.

Termination is what §4.2 of the specification calls its guard against endless loops: a statement
that cannot be read still uses up a token.
-/

namespace Scriptlet

/-! ## 1. Cursors that move on

A cursor knows the token before it, which an error at the end of the input refers to. -/

namespace Cursor

/-- The tokens `taken` stand between `c` and `d`, and none of them marks the end. -/
structure Moves (c : Cursor) (taken : List Token) (d : Cursor) : Prop where
  rest : c.rest = taken ++ d.rest
  proper : ∀ t ∈ taken, t.kind ≠ .eof
  previous : d.previous = taken.getLast?.or c.previous

def Reaches (c d : Cursor) : Prop := ∃ taken, c.Moves taken d

def Passes (c d : Cursor) : Prop := ∃ taken, taken ≠ [] ∧ c.Moves taken d

variable {c d e : Cursor}

theorem Moves.refl (c : Cursor) : c.Moves [] c := ⟨rfl, by simp, rfl⟩

theorem Moves.trans {xs ys : List Token} (h : c.Moves xs d) (h' : d.Moves ys e) :
    c.Moves (xs ++ ys) e where
  rest := by rw [h.rest, h'.rest, List.append_assoc]
  proper := by
    intro t ht
    rcases List.mem_append.1 ht with ht | ht
    · exact h.proper t ht
    · exact h'.proper t ht
  previous := by rw [h'.previous, h.previous, List.getLast?_append, Option.or_assoc]

/-- Advancing takes the next token, unless the input is used up. -/
theorem moves_advance (h : c.peek.kind ≠ .eof) : c.Moves [c.peek] c.advance := by
  obtain ⟨previous, rest⟩ := c
  cases rest with
  | nil => exact absurd rfl h
  | cons t rest =>
    have ht : t.kind ≠ .eof := h
    rw [advance_of_cons ht]
    refine ⟨rfl, ?_, rfl⟩
    intro u hu
    obtain rfl := List.mem_singleton.1 hu
    exact ht

theorem Reaches.refl (c : Cursor) : c.Reaches c := ⟨[], .refl c⟩

theorem Reaches.trans (h : c.Reaches d) (h' : d.Reaches e) : c.Reaches e := by
  obtain ⟨xs, hxs⟩ := h
  obtain ⟨ys, hys⟩ := h'
  exact ⟨xs ++ ys, hxs.trans hys⟩

theorem Passes.reaches (h : c.Passes d) : c.Reaches d := by
  obtain ⟨taken, -, hmoves⟩ := h
  exact ⟨taken, hmoves⟩

/-- Something was consumed, and more may be. -/
theorem Passes.trans (h : c.Passes d) (h' : d.Reaches e) : c.Passes e := by
  obtain ⟨xs, hne, hxs⟩ := h
  obtain ⟨ys, hys⟩ := h'
  exact ⟨xs ++ ys, List.append_ne_nil_of_left_ne_nil hne ys, hxs.trans hys⟩

/-- Nothing may have been consumed yet, but then something is. -/
theorem Reaches.trans_passes (h : c.Reaches d) (h' : d.Passes e) : c.Passes e := by
  obtain ⟨xs, hxs⟩ := h
  obtain ⟨ys, hne, hys⟩ := h'
  exact ⟨xs ++ ys, List.append_ne_nil_of_right_ne_nil xs hne, hxs.trans hys⟩

theorem passes_advance (h : c.peek.kind ≠ .eof) : c.Passes c.advance :=
  ⟨[c.peek], List.cons_ne_nil _ _, moves_advance h⟩

theorem Reaches.length_le (h : c.Reaches d) : d.rest.length ≤ c.rest.length := by
  obtain ⟨taken, hmoves⟩ := h
  rw [hmoves.rest, List.length_append]
  omega

theorem Passes.length_lt (h : c.Passes d) : d.rest.length < c.rest.length := by
  obtain ⟨taken, hne, hmoves⟩ := h
  have hpos := List.length_pos_iff.2 hne
  rw [hmoves.rest, List.length_append]
  omega

/-- A phrase that is found was consumed, and where none is found the cursor stays. -/
def Finds {α : Type} (c : Cursor) : Option α → Cursor → Prop
  | some _, d => c.Passes d
  | none, d => d = c

/-- A turn that is taken consumes something, and where there is no turn to take the cursor stays. -/
def Turns {α : Type} (c : Cursor) : Parser.Turn α → Cursor → Prop
  | .out, d => d = c
  | .last _, d => c.Passes d
  | .next _, d => c.Passes d

/-- Items are gathered in turns that were taken. -/
def Gathers {α : Type} (c : Cursor) (items : List α) (d : Cursor) : Prop :=
  items = [] ∧ d = c ∨ c.Passes d

theorem Gathers.reaches {α : Type} {items : List α} (h : c.Gathers items d) : c.Reaches d := by
  rcases h with ⟨-, rfl⟩ | h
  · exact .refl d
  · exact h.reaches

/-- The fuel may not last for the tokens that are left. -/
def Short (c : Cursor) (fuel extra : Nat) : Prop := fuel < 8 * c.rest.length + extra

theorem Short.mono {n w k : Nat} (h : c.Short n w) (hw : w ≤ k) : c.Short n k :=
  Nat.lt_of_lt_of_le h (by omega)

/-- A call costs one unit of fuel, and each parser is allowed for one more than those that it
calls. -/
theorem Short.succ {n w k : Nat} (h : c.Short n w) (hw : w < k) : c.Short (n + 1) k := by
  unfold Short at *
  omega

/-- Fuel that is short further on is short here, where more tokens are left. -/
theorem Short.back {n w : Nat} (h : d.Short n w) (hd : c.Reaches d) : c.Short n w := by
  have := hd.length_le
  unfold Short at *
  omega

/-- A token that was consumed pays for the calls that are made before the next one is. -/
theorem Short.back_over {n : Nat} (h : d.Short n 8) (hd : c.Passes d) : c.Short n 0 := by
  have := hd.length_lt
  unfold Short at *
  omega

end Cursor

/-! ## 2. Runs that end

A run succeeds, refuses its input, or was short of fuel; `short` says what that amounts to. -/

namespace Parser

variable {α β : Type}

/-- A run of a parser from a cursor ends in a result that satisfies `post` or in a refusal, or else
its fuel is short. -/
def Ends (p : Parser α) (c : Cursor) (short : Prop) (post : α → Cursor → Prop) : Prop :=
  match p c with
  | .ok a d => post a d
  | .error _ => True
  | .exhausted => short

section Ends

variable {p : Parser α} {c : Cursor} {short short' : Prop} {post post' : α → Cursor → Prop}

theorem ends_of_ok {a : α} {d : Cursor} (h : p c = .ok a d) (hpost : post a d) :
    p.Ends c short post := by
  simpa only [Ends, h] using hpost

theorem Ends.of_ok {a : α} {d : Cursor} (h : p.Ends c short post) (hp : p c = .ok a d) :
    post a d := by
  simpa only [Ends, hp] using h

/-- With fuel enough, a parser returns or refuses. -/
theorem Ends.result_of_not_short (h : p.Ends c short post) (hshort : ¬ short) :
    (∃ a d, p c = .ok a d ∧ post a d) ∨ ∃ e, p c = .error e := by
  unfold Ends at h
  cases hp : p c with
  | ok a d =>
    rw [hp] at h
    exact .inl ⟨a, d, rfl, h⟩
  | error e => exact .inr ⟨e, rfl⟩
  | exhausted =>
    rw [hp] at h
    exact absurd h hshort

theorem Ends.weaken (h : p.Ends c short post) (hshort : short → short')
    (hpost : ∀ a d, post a d → post' a d) :
    p.Ends c short' post' := by
  unfold Ends at *
  cases hp : p c with
  | ok a d =>
    rw [hp] at h
    exact hpost a d h
  | error e => trivial
  | exhausted =>
    rw [hp] at h
    exact hshort h

theorem Ends.relax (h : p.Ends c short post) (hshort : short → short') : p.Ends c short' post :=
  h.weaken hshort fun _ _ hd => hd

/-- Both parts may run out of fuel, for the same reason. -/
theorem Ends.bind {f : α → Parser β} {next : β → Cursor → Prop} (h : p.Ends c short post)
    (hf : ∀ a d, post a d → (f a).Ends d short next) : (p >>= f).Ends c short next := by
  unfold Ends at h ⊢
  simp only [Bind.bind]
  cases hp : p c with
  | ok a d =>
    rw [hp] at h
    exact hf a d h
  | error e => trivial
  | exhausted =>
    rw [hp] at h
    exact h

theorem ends_bind_of_ok {a : α} {d : Cursor} {f : α → Parser β} {next : β → Cursor → Prop}
    (h : p c = .ok a d) (hf : (f a).Ends d short next) : (p >>= f).Ends c short next := by
  unfold Ends at hf ⊢
  rw [bind_run_of_ok h]
  exact hf

/-- Where the phrase is absent the cursor is known to stay. -/
theorem Ends.finds {p : Parser (Option α)} {more : Prop}
    (h : p.Ends c short fun a d => a ≠ none → c.Passes d)
    (habsent : p.Meets c (fun a d => a = none → d = c ∧ more) fun _ => True) :
    p.Ends c short c.Finds := by
  unfold Ends Meets at *
  cases hp : p c with
  | ok a d =>
    rw [hp] at h habsent
    cases a with
    | some a => exact h (by simp)
    | none => exact (habsent rfl).1
  | error e => trivial
  | exhausted =>
    rw [hp] at h
    exact h

theorem ends_accept {kind : TokenKind} (hkind : kind ≠ .eof) :
    (accept kind).Ends c short fun found d =>
      found = true ∧ c.Passes d ∨ found = false ∧ d = c := by
  by_cases hpeek : c.peek.kind = kind
  · have hend : c.peek.kind ≠ .eof := by rwa [hpeek]
    exact ends_of_ok (accept_of_eq hpeek) (.inl ⟨rfl, Cursor.passes_advance hend⟩)
  · exact ends_of_ok (accept_of_ne hpeek) (.inr ⟨rfl, rfl⟩)

/-- A turn that has read its item takes the comma behind it. -/
theorem ends_comma {start : Cursor} {items : List α} (h : start.Passes c) :
    (do
      if ← accept (.symbol .comma) then return .next items
      else return .last items : Parser (Turn α)).Ends c short start.Turns := by
  refine (ends_accept (by simp)).bind fun more d hd => ?_
  rcases hd with ⟨rfl, hcomma⟩ | ⟨rfl, rfl⟩
  · exact h.trans hcomma.reaches
  · exact h

theorem ends_expect (s : Symbol) : (expect s).Ends c short fun _ d => c.Passes d := by
  refine (ends_accept (by simp)).bind fun found d hd => ?_
  rcases hd with ⟨rfl, hpasses⟩ | ⟨rfl, rfl⟩
  · exact hpasses
  · trivial

theorem ends_identifier : identifier.Ends c short fun _ d => c.Passes d := by
  refine ends_bind_of_ok (peek_run c) ?_
  split
  · next name hkind =>
    have hend : c.peek.kind ≠ .eof := by simp [hkind]
    exact Cursor.passes_advance hend
  · trivial

/-- A name is two tokens, or none. -/
theorem ends_argumentName : Expr.argumentName.Ends c short fun _ d => c.Reaches d := by
  by_cases hnamed : ∃ name, c.Named name
  · obtain ⟨name, hname⟩ := hnamed
    have hfirst : c.peek.kind ≠ .eof := by simp [hname.1]
    have hsecond : c.advance.peek.kind ≠ .eof := by
      rw [peek_advance hfirst hname.2]
      simp
    refine ends_of_ok (argumentName_of_named hname) ?_
    exact (Cursor.passes_advance hfirst).reaches.trans (Cursor.passes_advance hsecond).reaches
  · have hnone : ∀ name, ¬ c.Named name := fun name hname => hnamed ⟨name, hname⟩
    exact ends_of_ok (argumentName_of_not_named hnone) (.refl c)

/-- Where a phrase is required, it is consumed or the input is refused. -/
theorem Ends.require {p : Parser (Option α)} {wanted : Wanted} (h : p.Ends c short c.Finds) :
    (require wanted p).Ends c short fun _ d => c.Passes d := by
  refine h.bind fun result d hd => ?_
  cases result with
  | some a => exact hd
  | none => trivial

end Ends

/-! ## 3. Parsers that proceed

Most parsers need no account of where they stop: it is enough that they do not go back. -/

/-- From every cursor the parser only moves on, and it ends unless the fuel is short. -/
def Proceeds (n : Nat) (p : Parser α) : Prop := ∀ c, p.Ends c (c.Short n 8) fun _ d => c.Reaches d

namespace Proceeds

variable {n : Nat} {p : Parser α}

theorem pure (a : α) : Proceeds n (pure a : Parser α) := fun c => Cursor.Reaches.refl c

theorem fail (fault : Cursor → SyntaxFault) : Proceeds n (fail fault : Parser α) := fun _ => trivial

theorem unexpected (wanted : Wanted) : Proceeds n (unexpected wanted : Parser α) := fun _ => trivial

theorem check (kind : TokenKind) : Proceeds n (check kind) := fun c => Cursor.Reaches.refl c

/-- Parsers that proceed follow each other, and stay within the same fuel. -/
theorem bind {f : α → Parser β} (h : Proceeds n p) (hf : ∀ a, Proceeds n (f a)) :
    Proceeds n (p >>= f) := by
  intro c
  refine (h c).bind fun a d hd => (hf a d).weaken (fun hshort => hshort.back hd) ?_
  intro b e he
  exact hd.trans he

theorem accept {kind : TokenKind} (hkind : kind ≠ .eof) : Proceeds n (accept kind) := by
  intro c
  refine (ends_accept hkind).weaken id fun found d hd => ?_
  rcases hd with ⟨-, hpasses⟩ | ⟨-, rfl⟩
  · exact hpasses.reaches
  · exact .refl d

theorem expect (s : Symbol) : Proceeds n (expect s) :=
  fun _ => (ends_expect s).weaken id fun _ _ hd => hd.reaches

theorem identifier : Proceeds n identifier :=
  fun _ => ends_identifier.weaken id fun _ _ hd => hd.reaches

theorem of_finds {p : Parser (Option α)} {w : Nat} (hw : w ≤ 8)
    (h : ∀ c, p.Ends c (c.Short n w) c.Finds) :
    Proceeds n p := by
  intro c
  refine (h c).weaken (fun hshort => hshort.mono hw) fun result d hd => ?_
  cases result with
  | some a => exact hd.reaches
  | none =>
    obtain rfl := hd
    exact .refl d

theorem of_gathers {p : Parser (List α)} {w : Nat} (hw : w ≤ 8)
    (h : ∀ c, p.Ends c (c.Short n w) c.Gathers) :
    Proceeds n p :=
  fun c => (h c).weaken (fun hshort => hshort.mono hw) fun _ _ hd => hd.reaches

theorem of_passes {w : Nat} (hw : w ≤ 8) (h : ∀ c, p.Ends c (c.Short n w) fun _ d => c.Passes d) :
    Proceeds n p :=
  fun c => (h c).weaken (fun hshort => hshort.mono hw) fun _ _ hd => hd.reaches

end Proceeds

section Behind

variable {n w : Nat} {p : Parser α} {c : Cursor} {short : Prop}

/-- Behind a phrase that was consumed, whatever proceeds may follow. -/
theorem Ends.then {f : α → Parser β} (h : p.Ends c short fun _ d => c.Passes d)
    (hshort : c.Short n 0 → short) (hf : ∀ a, Proceeds n (f a)) :
    (p >>= f).Ends c short fun _ d => c.Passes d := by
  refine h.bind fun a d hd => (hf a d).weaken (fun hd' => hshort (hd'.back_over hd)) ?_
  intro b e he
  exact hd.trans he

theorem ends_advance (hend : c.peek.kind ≠ .eof) (hshort : c.Short n 0 → short) (h : Proceeds n p) :
    (advance >>= fun _ => p).Ends c short fun _ d => c.Passes d :=
  Ends.then (p := advance) (Cursor.passes_advance hend) hshort fun _ => h

/-- A loop whose turns consume something ends. -/
theorem Ends.loop {loop : Nat → Parser (List α)} {turn : Nat → Parser (Turn α)}
    (hturn : (turn n).Ends c (c.Short n w) c.Turns) (heq : ∀ n, loop n = Parser.loop turn n)
    (hloop : Proceeds n (loop n)) : (loop (n + 1)).Ends c (c.Short (n + 1) (w + 1)) c.Gathers := by
  rw [heq] at hloop ⊢
  have hless : c.Short n w → c.Short (n + 1) (w + 1) :=
    fun hshort => hshort.succ (Nat.lt_succ_self w)
  refine (hturn.relax hless).bind fun result d hd => ?_
  cases result with
  | out => exact .inl ⟨rfl, hd⟩
  | last items => exact .inr hd
  | next items =>
    have hshort : d.Short n 8 → c.Short (n + 1) (w + 1) :=
      fun hshort => hless ((hshort.back_over hd).mono (Nat.zero_le w))
    refine ((hloop d).relax hshort).bind fun more e he => ?_
    exact .inr (hd.trans he)

end Behind
end Parser

open Scriptlet.Parser

/-! ## 4. Expressions

Each parser spends a fixed amount of fuel before it consumes a token. -/

structure ExprEnds (n : Nat) : Prop where
  parse? (level : Nat) (c : Cursor) : (Expr.parse? n level).Ends c (c.Short n 2) c.Finds
  operand? (c : Cursor) : (Expr.operand? n).Ends c (c.Short n 1) c.Finds
  extend (level : Nat) (left : Expr) : Proceeds n (Expr.extend n level left)
  continueWith (left : Expr) (k : Expr.Continuation) : Proceeds n (Expr.continueWith n left k)
  listItems (c : Cursor) : (Expr.listItems n).Ends c (c.Short n 3) c.Gathers
  arguments (c : Cursor) : (Expr.arguments n).Ends c (c.Short n 3) c.Gathers
  stringParts (c : Cursor) : (Expr.stringParts n).Ends c (c.Short n 3) c.Gathers

namespace ExprEnds

variable {n : Nat}

theorem expression (h : ExprEnds n) (level : Nat) (c : Cursor) :
    (require .expression (Expr.parse? n level)).Ends c (c.Short n 2) fun _ d => c.Passes d :=
  (h.parse? level c).require

theorem proceeds_expression (h : ExprEnds n) (level : Nat) :
    Proceeds n (require .expression (Expr.parse? n level)) :=
  .of_passes (by decide) (h.expression level)

/-- The operand pays for the operators behind it. -/
theorem parse?_succ (h : ExprEnds n) (level : Nat) (c : Cursor) :
    (Expr.parse? (n + 1) level).Ends c (c.Short (n + 1) 2) c.Finds := by
  have hoperand := (h.operand? c).relax fun hshort => hshort.succ (k := 2) (by decide)
  refine hoperand.bind fun result d hd => ?_
  cases result with
  | some left =>
    have hshort : d.Short n 8 → c.Short (n + 1) 2 :=
      fun hshort => (hshort.back_over hd).succ (by decide)
    refine ((h.extend level left d).relax hshort).bind fun longer e he => ?_
    exact Cursor.Passes.trans hd he
  | none => exact hd

theorem operand?_succ (h : ExprEnds n) (c : Cursor) :
    (Expr.operand? (n + 1)).Ends c (c.Short (n + 1) 1) c.Finds := by
  refine Ends.finds ?_ (Expr.operand?_absent (n + 1) c)
  refine ends_bind_of_ok (peek_run c) ?_
  have hless : c.Short n 0 → c.Short (n + 1) 1 := fun hshort => hshort.succ (by decide)
  -- a token that starts an operand is consumed first
  have hstart : ∀ {p : Parser (Option Expr)}, c.peek.kind ≠ .eof → Proceeds n p →
      (advance >>= fun _ => p).Ends c (c.Short (n + 1) 1) fun a d => a ≠ none → c.Passes d :=
    fun hend hp => (ends_advance hend hless hp).weaken id fun _ _ hd _ => hd
  split
  · next op hop =>
    refine hstart ?_ (.bind (h.proceeds_expression _) fun _ => .pure _)
    intro heof
    rw [heof] at hop
    cases hop
  generalize hkind : c.peek.kind = kind at hstart
  cases kind with
  | int _ | float _ | bool _ | ident _ => exact hstart (by simp) (.pure _)
  | strOpen =>
    exact hstart (by simp) (.bind (.of_gathers (by decide) h.stringParts) fun _ => .pure _)
  | symbol s =>
    cases s with
    | lparen =>
      exact hstart (by simp) (.bind (h.proceeds_expression _) fun _ => .bind (.expect _)
        fun _ => .pure _)
    | lbracket =>
      refine hstart (by simp) ?_
      exact .bind (.of_gathers (by decide) h.listItems) fun _ => .bind (.expect _) fun _ => .pure _
    | _ => exact fun hnone => absurd rfl hnone
  | _ => exact fun hnone => absurd rfl hnone

/-- An operator that is read is consumed. -/
theorem operatorTurn (h : ExprEnds n) (level : Nat) (left : Expr) (c : Cursor) :
    (Expr.operatorTurn n level left).Ends c (c.Short n 0) c.Finds := by
  refine ends_bind_of_ok (peek_run c) ?_
  cases hk : Expr.Continuation.ofKind? c.peek.kind with
  | none => exact rfl
  | some k =>
    simp only
    split
    · have hend : c.peek.kind ≠ .eof := by
        intro heof
        rw [heof] at hk
        cases hk
      refine ends_bind_of_ok (p := advance) rfl ?_
      have hpasses := Cursor.passes_advance hend
      refine ((h.continueWith left k _).relax (fun hshort => hshort.back_over hpasses)).bind ?_
      intro longer e he
      exact hpasses.trans he
    · exact rfl

/-- Every operator is consumed before the next one is looked for. -/
theorem extend_succ (h : ExprEnds n) (level : Nat) (left : Expr) :
    Proceeds (n + 1) (Expr.extend (n + 1) level left) := by
  intro c
  rw [Expr.extend_eq_turn]
  have hless : c.Short n 0 → c.Short (n + 1) 8 := fun hshort => hshort.succ (by decide)
  refine ((h.operatorTurn level left c).relax hless).bind fun longer? d hd => ?_
  cases longer? with
  | none =>
    obtain rfl := hd
    exact Cursor.Reaches.refl d
  | some longer =>
    refine (h.extend level longer d).weaken (fun hshort => hless (hshort.back_over hd))
      fun _ e he => ?_
    exact (Cursor.Passes.trans hd he).reaches

/-- The operator has been consumed by now, so fuel for eight calls is left here. -/
theorem continueWith_succ (h : ExprEnds n) (left : Expr) (k : Expr.Continuation) :
    Proceeds (n + 1) (Expr.continueWith (n + 1) left k) := by
  intro c
  have hless : c.Short n 0 → c.Short (n + 1) 8 := fun hshort => hshort.succ (by decide)
  have hexpr : ∀ level, (require .expression (Expr.parse? n level)).Ends c (c.Short (n + 1) 8)
      fun _ d => c.Passes d :=
    fun level => (h.expression level c).relax fun hshort => hshort.succ (by decide)
  have hreaches : ∀ {p : Parser Expr}, (p.Ends c (c.Short (n + 1) 8) fun _ d => c.Passes d) →
      p.Ends c (c.Short (n + 1) 8) fun _ d => c.Reaches d :=
    fun hp => hp.weaken id fun _ _ hd => hd.reaches
  cases k with
  | binary op => exact hreaches ((hexpr _).then hless fun _ => .pure _)
  | ternary =>
    refine hreaches ((hexpr _).then hless fun _ => .bind (.expect _) fun _ => ?_)
    exact .bind (h.proceeds_expression _) fun _ => .pure _
  | call =>
    have harguments := (h.arguments c).relax fun hshort => hshort.succ (k := 8) (by decide)
    refine harguments.bind fun args d hd => (ends_expect _).bind fun _ e he => ?_
    exact hd.reaches.trans he.reaches
  | subscript => exact hreaches ((hexpr _).then hless fun _ => .bind (.expect _) fun _ => .pure _)
  | step op => exact Cursor.Reaches.refl c

theorem listTurn (h : ExprEnds n) (c : Cursor) :
    (Expr.listTurn n).Ends c (c.Short n 2) c.Turns := by
  refine ends_bind_of_ok (check_run _ c) (ends_bind_of_ok (atEnd_run c) ?_)
  split
  · exact rfl
  · refine (h.expression _ c).bind fun item d hd => ?_
    exact ends_comma hd

theorem argumentTurn (h : ExprEnds n) (c : Cursor) :
    (Expr.argumentTurn n).Ends c (c.Short n 2) c.Turns := by
  refine ends_bind_of_ok (check_run _ c) (ends_bind_of_ok (atEnd_run c) ?_)
  split
  · exact rfl
  · refine ends_argumentName.bind fun name d hname => ?_
    refine ((h.expression _ d).relax (fun hshort => hshort.back hname)).bind fun value e he => ?_
    exact ends_comma (hname.trans_passes he)

/-- Text, an embedded expression and the closing quote all have tokens. -/
theorem partTurn (h : ExprEnds n) (c : Cursor) :
    (Expr.partTurn n).Ends c (c.Short n 2) c.Turns := by
  refine ends_bind_of_ok (peek_run c) ?_
  split
  · next text hkind => exact Cursor.passes_advance (by simp [hkind])
  · next hkind =>
    have hopen : c.Passes c.advance := Cursor.passes_advance (by simp [hkind])
    refine ends_bind_of_ok (p := advance) rfl ?_
    refine ((h.expression _ _).relax (fun hshort => hshort.back hopen.reaches)).bind
      fun e d hd => ?_
    refine (ends_accept (by simp)).bind fun closed f hf => ?_
    rcases hf with ⟨rfl, hclose⟩ | ⟨rfl, -⟩
    · exact hopen.trans (hd.trans hclose.reaches).reaches
    · trivial
  · next hkind => exact Cursor.passes_advance (by simp [hkind])
  · trivial

theorem listItems_succ (h : ExprEnds n) (c : Cursor) :
    (Expr.listItems (n + 1)).Ends c (c.Short (n + 1) 3) c.Gathers :=
  (h.listTurn c).loop Expr.listItems_eq_loop (.of_gathers (by decide) h.listItems)

theorem arguments_succ (h : ExprEnds n) (c : Cursor) :
    (Expr.arguments (n + 1)).Ends c (c.Short (n + 1) 3) c.Gathers :=
  (h.argumentTurn c).loop Expr.arguments_eq_loop (.of_gathers (by decide) h.arguments)

theorem stringParts_succ (h : ExprEnds n) (c : Cursor) :
    (Expr.stringParts (n + 1)).Ends c (c.Short (n + 1) 3) c.Gathers :=
  (h.partTurn c).loop Expr.stringParts_eq_loop (.of_gathers (by decide) h.stringParts)

end ExprEnds

/-- No fuel at all is always short. -/
theorem Cursor.short_zero (c : Cursor) {w : Nat} (hw : 0 < w) : c.Short 0 w := by
  unfold Short
  omega

/-- The induction on fuel over all parsers of expressions. -/
theorem exprEnds (n : Nat) : ExprEnds n := by
  induction n with
  | zero =>
    exact ⟨fun _ c => c.short_zero (by decide), fun c => c.short_zero (by decide),
      fun _ _ c => c.short_zero (by decide), fun _ _ c => c.short_zero (by decide),
      fun c => c.short_zero (by decide), fun c => c.short_zero (by decide),
      fun c => c.short_zero (by decide)⟩
  | succ n ih =>
    exact ⟨ih.parse?_succ, ih.operand?_succ, ih.extend_succ, ih.continueWith_succ,
      ih.listItems_succ, ih.arguments_succ, ih.stringParts_succ⟩

theorem proceeds_parse? (n level : Nat) : Proceeds n (Expr.parse? n level) :=
  .of_finds (by decide) ((exprEnds n).parse? level)

/-! ## 5. Labels and parameters -/

section Parts

variable (n : Nat)

theorem proceeds_parseExpression : Proceeds n (Stmt.parseExpression n) :=
  (exprEnds n).proceeds_expression _

theorem proceeds_parseCondition : Proceeds n (Stmt.parseCondition n) :=
  .bind (.expect _) fun _ => .bind (proceeds_parseExpression n) fun _ => .bind (.expect _)
    fun _ => .pure _

theorem proceeds_optionalSemicolon : Proceeds n Stmt.optionalSemicolon :=
  .bind (.accept (by simp)) fun _ => .pure _

theorem proceeds_paramDefault (name : String) : Proceeds n (Stmt.paramDefault n name) := by
  refine .bind (.accept (by simp)) fun given => ?_
  split
  · refine .bind (proceeds_parse? n _) fun value => ?_
    split
    · exact .pure _
    · exact .fail _
  · exact .pure _

/-- A label begins with a keyword. -/
theorem ends_labelTurn (c : Cursor) : (Stmt.labelTurn n).Ends c (c.Short n 2) c.Turns := by
  refine (ends_accept (by simp)).bind fun isCase d hd => ?_
  rcases hd with ⟨rfl, hcase⟩ | ⟨rfl, rfl⟩
  · have hvalue := ((exprEnds n).expression Level.lowest d).relax fun hshort =>
      hshort.back hcase.reaches
    refine hvalue.bind fun value e he => (ends_expect _).bind fun _ f hf => ?_
    exact hcase.trans (he.trans hf.reaches).reaches
  · refine (ends_accept (by simp)).bind fun isDefault e he => ?_
    rcases he with ⟨rfl, hdefault⟩ | ⟨rfl, rfl⟩
    · refine (ends_expect _).bind fun _ f hf => ?_
      exact hdefault.trans hf.reaches
    · exact rfl

theorem ends_parseLabels (c : Cursor) : (Stmt.parseLabels n).Ends c (c.Short n 3) c.Gathers := by
  induction n generalizing c with
  | zero => exact c.short_zero (by decide)
  | succ n ih =>
    exact (ends_labelTurn n c).loop Stmt.parseLabels_eq_loop (.of_gathers (by decide) ih)

/-- A section has a label, which is consumed. -/
theorem ends_parseSomeLabels (c : Cursor) :
    (Stmt.parseSomeLabels n).Ends c (c.Short n 3) fun _ d => c.Passes d := by
  refine (ends_parseLabels n c).bind fun labels d hd => ?_
  split
  · trivial
  · next hsome => exact hd.resolve_left fun hnone => hsome hnone.1

theorem ends_paramTurn (c : Cursor) : (Stmt.paramTurn n).Ends c (c.Short n 2) c.Turns := by
  refine ends_bind_of_ok (check_run _ c) (ends_bind_of_ok (atEnd_run c) ?_)
  split
  · exact rfl
  · refine ends_bind_of_ok (peek_run c) (ends_identifier.bind fun name d hd => ?_)
    have hdefault := (proceeds_paramDefault n name d).relax fun hshort =>
      (hshort.back_over hd).mono (k := 2) (by decide)
    refine hdefault.bind fun default e he => ?_
    exact ends_comma (hd.trans he)

theorem proceeds_parseParams : Proceeds n (Stmt.parseParams n) := by
  have hgathers : ∀ c, (Stmt.parseParams n).Ends c (c.Short n 3) c.Gathers := by
    induction n with
    | zero => exact fun c => c.short_zero (by decide)
    | succ n ih =>
      exact fun c => (ends_paramTurn n c).loop Stmt.parseParams_eq_loop (.of_gathers (by decide) ih)
  exact .of_gathers (by decide) hgathers

end Parts

/-! ## 6. Statements

A list of statements goes on only behind a token that was consumed or skipped. -/

structure StmtEnds (n : Nat) : Prop where
  parseMany (stop : TokenKind → Bool) (c : Cursor) :
    (Stmt.parseMany n stop).Ends c (c.Short n 4) c.Gathers
  parse? (c : Cursor) : (Stmt.parse? n).Ends c (c.Short n 3) c.Finds
  parseBody (c : Cursor) : (Stmt.parseBody n).Ends c (c.Short n 4) fun _ d => c.Passes d
  parseBlock (c : Cursor) : (Stmt.parseBlock n).Ends c (c.Short n 1) fun _ d => c.Passes d
  parseSections (c : Cursor) : (Stmt.parseSections n).Ends c (c.Short n 4) c.Gathers

namespace StmtEnds

variable {n : Nat}

theorem proceeds_parseMany (h : StmtEnds n) (stop : TokenKind → Bool) :
    Proceeds n (Stmt.parseMany n stop) :=
  .of_gathers (by decide) (h.parseMany stop)

theorem proceeds_parseBody (h : StmtEnds n) : Proceeds n (Stmt.parseBody n) :=
  .of_passes (by decide) h.parseBody

theorem proceeds_parseBlock (h : StmtEnds n) : Proceeds n (Stmt.parseBlock n) :=
  .of_passes (by decide) h.parseBlock

theorem proceeds_parseSections (h : StmtEnds n) : Proceeds n (Stmt.parseSections n) :=
  .of_gathers (by decide) h.parseSections

/-- A turn reads a statement or skips a token. -/
theorem statementTurn (h : StmtEnds n) (stop : TokenKind → Bool) (c : Cursor) :
    (Stmt.statementTurn stop n).Ends c (c.Short n 3) c.Turns := by
  refine ends_bind_of_ok (atEnd_run c) (ends_bind_of_ok (peek_run c) ?_)
  split
  · exact rfl
  · next hmore =>
    refine (h.parse? c).bind fun result d hd => ?_
    cases result with
    | some s => exact hd
    | none =>
      obtain rfl := hd
      have hend : d.peek.kind ≠ .eof := by
        intro heof
        simp [Cursor.atEnd, heof] at hmore
      exact Cursor.passes_advance hend

/-- Its labels pay for the statements of a section. -/
theorem sectionTurn (h : StmtEnds n) (c : Cursor) :
    (Stmt.sectionTurn n).Ends c (c.Short n 3) c.Turns := by
  refine ends_bind_of_ok (check_run _ c) (ends_bind_of_ok (atEnd_run c) ?_)
  split
  · exact rfl
  · refine (ends_parseSomeLabels n c).bind fun labels d hd => ?_
    have hbody := (h.proceeds_parseMany Stmt.endsSection d).relax fun hshort =>
      (hshort.back_over hd).mono (k := 3) (by decide)
    refine hbody.bind fun stmts e he => ?_
    exact hd.trans he

theorem parseMany_succ (h : StmtEnds n) (stop : TokenKind → Bool) (c : Cursor) :
    (Stmt.parseMany (n + 1) stop).Ends c (c.Short (n + 1) 4) c.Gathers :=
  (h.statementTurn stop c).loop (Stmt.parseMany_eq_loop stop) (h.proceeds_parseMany stop)

theorem parseSections_succ (h : StmtEnds n) (c : Cursor) :
    (Stmt.parseSections (n + 1)).Ends c (c.Short (n + 1) 4) c.Gathers :=
  (h.sectionTurn c).loop Stmt.parseSections_eq_loop h.proceeds_parseSections

theorem parse?_succ (h : StmtEnds n) (c : Cursor) :
    (Stmt.parse? (n + 1)).Ends c (c.Short (n + 1) 3) c.Finds := by
  refine Ends.finds ?_ (Stmt.parse?_absent (n + 1) c)
  refine ends_bind_of_ok (peek_run c) ?_
  have hless : c.Short n 0 → c.Short (n + 1) 3 := fun hshort => hshort.succ (by decide)
  -- a keyword that starts a statement is consumed first
  have hstart : ∀ {k : Keyword} {p : Parser (Option Stmt)}, c.peek.kind = .keyword k →
      Proceeds n p →
      (advance >>= fun _ => p).Ends c (c.Short (n + 1) 3) fun a d => a ≠ none → c.Passes d :=
    fun hkind hp => (ends_advance (by simp [hkind]) hless hp).weaken id fun _ _ hd _ => hd
  split
  · refine ((h.parseBlock c).relax (fun hshort => hshort.succ (by decide))).bind fun _ d hd => ?_
    exact fun _ => hd
  · next hkind =>
    refine hstart hkind (.bind (proceeds_parseCondition n) fun _ => .bind h.proceeds_parseBody
      fun _ => ?_)
    refine .bind (.accept (by simp)) fun other => ?_
    split
    · exact .bind h.proceeds_parseBody fun _ => .pure _
    · exact .pure _
  · next hkind =>
    refine hstart hkind (.bind (proceeds_parseCondition n) fun _ => .bind (.accept (by simp))
      fun braced => ?_)
    split
    · exact .bind h.proceeds_parseSections fun _ => .bind (.expect _) fun _ => .pure _
    · refine .bind (.of_passes (by decide) (ends_parseSomeLabels n)) fun _ => ?_
      exact .bind h.proceeds_parseBody fun _ => .pure _
  · next hkind =>
    exact hstart hkind (.bind (proceeds_parseCondition n) fun _ => .bind h.proceeds_parseBody
      fun _ => .pure _)
  · next hkind =>
    refine hstart hkind (.bind (.expect _) fun _ => ?_)
    refine .bind (proceeds_parse? n _) fun _ => .bind (.expect _) fun _ => ?_
    refine .bind (proceeds_parse? n _) fun _ => .bind (.expect _) fun _ => ?_
    refine .bind (proceeds_parse? n _) fun _ => .bind (.expect _) fun _ => ?_
    exact .bind h.proceeds_parseBody fun _ => .pure _
  · next hkind =>
    refine hstart hkind (.bind .identifier fun name => .bind (.expect _) fun _ => ?_)
    refine .bind (proceeds_parseParams n) fun _ => .bind (.expect _) fun _ => .bind (.check _)
      fun body => ?_
    split
    · exact .bind h.proceeds_parseBlock fun _ => .pure _
    · exact .fail _
  · next hkind => exact hstart hkind (.bind (proceeds_optionalSemicolon n) fun _ => .pure _)
  · next hkind => exact hstart hkind (.bind (proceeds_optionalSemicolon n) fun _ => .pure _)
  · next hkind =>
    refine hstart hkind (.bind (proceeds_parse? n _) fun _ => ?_)
    exact .bind (proceeds_optionalSemicolon n) fun _ => .pure _
  · have hexpr := ((exprEnds n).parse? Level.lowest c).relax fun hshort =>
      hshort.succ (k := 3) (by decide)
    refine hexpr.bind fun result d hd => ?_
    cases result with
    | none => exact fun hnone => absurd rfl hnone
    | some e =>
      have hsemicolon := (proceeds_optionalSemicolon n d).relax fun hshort =>
        hless (hshort.back_over hd)
      refine hsemicolon.bind fun _ e he => ?_
      exact fun _ => Cursor.Passes.trans hd he

theorem parseBody_succ (h : StmtEnds n) (c : Cursor) :
    (Stmt.parseBody (n + 1)).Ends c (c.Short (n + 1) 4) fun _ d => c.Passes d := by
  refine ends_bind_of_ok (peek_run c) ((ends_accept (by simp)).bind fun empty d hd => ?_)
  rcases hd with ⟨rfl, hsemicolon⟩ | ⟨rfl, rfl⟩
  · exact hsemicolon
  · exact ((h.parse? d).relax (fun hshort => hshort.succ (by decide))).require

theorem parseBlock_succ (h : StmtEnds n) (c : Cursor) :
    (Stmt.parseBlock (n + 1)).Ends c (c.Short (n + 1) 1) fun _ d => c.Passes d := by
  refine (ends_expect _).then (fun hshort => hshort.succ (by decide)) fun _ => ?_
  exact .bind (h.proceeds_parseMany _) fun _ => .bind (.expect _) fun _ => .pure _

end StmtEnds

/-- The induction on fuel over all parsers of statements. -/
theorem stmtEnds (n : Nat) : StmtEnds n := by
  induction n with
  | zero =>
    exact ⟨fun _ c => c.short_zero (by decide), fun c => c.short_zero (by decide),
      fun c => c.short_zero (by decide), fun c => c.short_zero (by decide),
      fun c => c.short_zero (by decide)⟩
  | succ n ih =>
    exact ⟨ih.parseMany_succ, ih.parse?_succ, ih.parseBody_succ, ih.parseBlock_succ,
      ih.parseSections_succ⟩

/-! ## 7. Refusals

Where a parser refuses its input is a matter of its discipline, and not of its fuel. -/

theorem Cursor.Reaches.advance {c d : Cursor} (h : c.Reaches d) : c.Reaches d.advance := by
  by_cases hend : d.peek.kind = .eof
  · have hstays : d.advance = d := by
      obtain ⟨previous, rest⟩ := d
      cases rest with
      | nil => rfl
      | cons t rest => exact if_pos hend
    rwa [hstays]
  · exact h.trans (Cursor.passes_advance hend).reaches

/-- Parsers move on from where they started, and refuse the input at a cursor on their way. -/
def onwards (start : Cursor) : Discipline where
  Context := Unit
  Frame := Unit
  top := ()
  Code := fun _ c => start.Reaches c
  Text := fun _ c => start.Reaches c
  Behind := fun _ c => start.Reaches c
  Refused := fun e =>
    e.fault.ofScanner = false ∧ ∃ c, start.Reaches c ∧ e.position = c.errorPosition
  plain := fun hc _ => hc.advance
  skip := fun hc _ _ => hc.advance
  strOpen := fun hc _ => ⟨(), hc.advance, fun _ hd => hd⟩
  strText := fun hc _ => hc.advance
  interpOpen := fun hc _ => ⟨(), hc.advance, fun _ hd _ => hd.advance⟩
  strClose := fun hc _ => hc.advance
  refused := fun hc _ hfault => ⟨hfault, _, hc, rfl⟩
  lost := fun hc _ => ⟨rfl, _, hc, rfl⟩

/-- The position of a refusal is that of a cursor on the way. -/
theorem exists_reaches_of_error {tokens : List Token} {e : SyntaxError}
    (h : Program.parse tokens = .error e) :
    e.fault.ofScanner = false ∧
      ∃ c, (Cursor.ofTokens tokens).Reaches c ∧ e.position = c.errorPosition :=
  (((onwards (.ofTokens tokens)).stmtKept _).parseMany _ _ (.refl _)).of_error h

/-! ## 8. Programs -/

/-- The fuel of a program is eight units for each token and a few more, so it is not short. -/
theorem result_of_parse (tokens : List Token) :
    (∃ program d, Program.parse tokens = .ok program d ∧ (Cursor.ofTokens tokens).Reaches d) ∨
      ∃ e, Program.parse tokens = .error e := by
  have hends := (stmtEnds (Program.parseFuel tokens.length)).parseMany (fun _ => false)
    (.ofTokens tokens)
  have hfuel : ¬ (Cursor.ofTokens tokens).Short (Program.parseFuel tokens.length) 4 := by
    unfold Cursor.Short Program.parseFuel
    simp only [Cursor.ofTokens]
    omega
  rcases hends.result_of_not_short hfuel with ⟨program, d, hparse, hd⟩ | herror
  · exact .inl ⟨program, d, hparse, hd.reaches⟩
  · exact .inr herror

/-- The parser is a loop of these turns, each of which consumes something if it is taken. -/
def Parser.AdvancesByTurns {α : Type} (p : Nat → Parser (List α)) (turn : Nat → Parser (Turn α)) :
    Prop :=
  (∀ n, p n = loop turn n) ∧ ∀ n c r d, turn n c = .ok r d → c.Turns r d

/-- Every list of tokens, whole or cut off, is parsed to a program or refused, by a parser that
never leaves the list; more fuel changes nothing.  Phrases that are found, and turns of loops that
are taken, consume something, and the cursor stays where no phrase is found. -/
theorem parser_ends_and_advances (tokens : List Token) :
    ((∃ program d, Program.parse tokens = .ok program d ∧ (Cursor.ofTokens tokens).Reaches d) ∨
      ∃ e c, Program.parse tokens = .error e ∧ (Cursor.ofTokens tokens).Reaches c ∧
        e.position = c.errorPosition) ∧
    (∀ fuel, Program.parseFuel tokens.length ≤ fuel →
      (Program.parse tokens).Alike (Stmt.parseMany fuel (fun _ => false) (.ofTokens tokens))) ∧
    (∀ fuel level c r d, Expr.parse? fuel level c = .ok r d → c.Finds r d) ∧
    (∀ fuel c r d, Stmt.parse? fuel c = .ok r d → c.Finds r d) ∧
    (∀ stop, AdvancesByTurns (Stmt.parseMany · stop) (Stmt.statementTurn stop)) ∧
    AdvancesByTurns Expr.arguments Expr.argumentTurn ∧
    AdvancesByTurns Expr.listItems Expr.listTurn ∧
    AdvancesByTurns Stmt.parseParams Stmt.paramTurn ∧
    AdvancesByTurns Stmt.parseSections Stmt.sectionTurn ∧
    AdvancesByTurns Stmt.parseLabels Stmt.labelTurn ∧
    AdvancesByTurns Expr.stringParts Expr.partTurn ∧
    (∀ fuel level left c r d, Expr.operatorTurn fuel level left c = .ok r d → c.Finds r d) := by
  refine ⟨?_, ?_, ?_, ?_, ?_, ?_, ?_, ?_, ?_, ?_, ?_, ?_⟩
  · rcases result_of_parse tokens with hok | ⟨e, herror⟩
    · exact .inl hok
    · obtain ⟨-, c, hc⟩ := exists_reaches_of_error herror
      exact .inr ⟨e, c, herror, hc⟩
  · intro fuel hfuel
    exact ((stmtRefines hfuel).parseMany _).alike (.inl rfl)
  · intro fuel level c r d h
    exact ((exprEnds fuel).parse? level c).of_ok h
  · intro fuel c r d h
    exact ((stmtEnds fuel).parse? c).of_ok h
  · intro stop
    exact ⟨Stmt.parseMany_eq_loop stop,
      fun n c r d h => ((stmtEnds n).statementTurn stop c).of_ok h⟩
  · exact ⟨Expr.arguments_eq_loop, fun n c r d h => ((exprEnds n).argumentTurn c).of_ok h⟩
  · exact ⟨Expr.listItems_eq_loop, fun n c r d h => ((exprEnds n).listTurn c).of_ok h⟩
  · exact ⟨Stmt.parseParams_eq_loop, fun n c r d h => (ends_paramTurn n c).of_ok h⟩
  · exact ⟨Stmt.parseSections_eq_loop, fun n c r d h => ((stmtEnds n).sectionTurn c).of_ok h⟩
  · exact ⟨Stmt.parseLabels_eq_loop, fun n c r d h => (ends_labelTurn n c).of_ok h⟩
  · exact ⟨Expr.stringParts_eq_loop, fun n c r d h => ((exprEnds n).partTurn c).of_ok h⟩
  · intro fuel level left c r d h
    exact ((exprEnds fuel).operatorTurn level left c).of_ok h

def cutTokens : List Token :=
  [⟨.symbol .lbracket, "[", ⟨1, 1⟩⟩, ⟨.ident "x", "x", ⟨1, 2⟩⟩, ⟨.symbol .comma, ",", ⟨1, 3⟩⟩]

/-- The list is refused behind its last token, and its first item was consumed. -/
theorem cutTokens_refused :
    Program.parse cutTokens = .error ⟨.missing (.spelled "]") .endOfInput, ⟨1, 4⟩⟩ ∧
    Stmt.parseMany 100 (fun _ => false) (.ofTokens cutTokens) =
      .error ⟨.missing (.spelled "]") .endOfInput, ⟨1, 4⟩⟩ ∧
    Cursor.Passes ⟨cutTokens[0]?, cutTokens.drop 1⟩ ⟨cutTokens[1]?, cutTokens.drop 2⟩ ∧
    Cursor.Passes ⟨cutTokens[0]?, cutTokens.drop 1⟩ ⟨cutTokens[2]?, []⟩ := by
  have hparse : Program.parse cutTokens = .error ⟨.missing (.spelled "]") .endOfInput, ⟨1, 4⟩⟩ := by
    with_unfolding_all rfl
  obtain ⟨-, hfuel, hexpr, -, -, -, hlist, -⟩ := parser_ends_and_advances cutTokens
  have hmore := hfuel 100 (by decide)
  rw [hparse] at hmore
  refine ⟨hparse, hmore.eq_error, ?_, ?_⟩
  · exact hexpr 10 0 ⟨cutTokens[0]?, cutTokens.drop 1⟩ (some (.var "x" ⟨1, 2⟩)) _
      (by with_unfolding_all rfl)
  · exact hlist.2 10 ⟨cutTokens[0]?, cutTokens.drop 1⟩ (.next [.var "x" ⟨1, 2⟩]) _
      (by with_unfolding_all rfl)

end Scriptlet
