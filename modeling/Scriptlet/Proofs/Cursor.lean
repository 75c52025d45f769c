import Scriptlet.Parser

/-!
# How the primitive parsers move a cursor

A parser is a function on cursors, so a proof about one runs it: the equations below say what each
primitive does in front of a known token, and what a sequence does after a first part that succeeds.
-/

namespace Scriptlet.Parser

variable {α β : Type}

/-! ## 1. Sequences -/

@[simp] theorem pure_run (a : α) (c : Cursor) : (pure a : Parser α) c = .ok a c := rfl

/-- A sequence goes on where its first part ended. -/
theorem bind_run_of_ok {p : Parser α} {a : α} {c d : Cursor} (h : p c = .ok a d)
    (f : α → Parser β) :
    (p >>= f) c = f a d := by
  simp only [bind, h]

/-- A required phrase that is there. -/
theorem require_of_some {p : Parser (Option α)} {wanted : Wanted} {a : α} {c d : Cursor}
    (h : p c = .ok (some a) d) : require wanted p c = .ok a d := by
  unfold require
  rw [bind_run_of_ok h]
  rfl

/-! ## 2. Single tokens -/

section Tokens

variable (previous : Option Token) (t : Token) (rest : List Token)

@[simp] theorem peek_run (c : Cursor) : peek c = .ok c.peek c := rfl

@[simp] theorem check_run (kind : TokenKind) (c : Cursor) :
    check kind c = .ok (decide (c.peek.kind = kind)) c := rfl

@[simp] theorem atEnd_run (c : Cursor) : atEnd c = .ok c.atEnd c := rfl

@[simp] theorem peek_cons : Cursor.peek ⟨previous, t :: rest⟩ = t := rfl

variable {t}

theorem advance_cons (h : t.kind ≠ .eof) :
    advance ⟨previous, t :: rest⟩ = .ok () ⟨some t, rest⟩ := by
  simp [advance, Cursor.advance, h]

theorem accept_cons {kind : TokenKind} (h : t.kind = kind) (hend : kind ≠ .eof) :
    accept kind ⟨previous, t :: rest⟩ = .ok true ⟨some t, rest⟩ := by
  have hadvance : Cursor.advance ⟨previous, t :: rest⟩ = ⟨some t, rest⟩ := by
    simp [Cursor.advance, h, hend]
  simp [accept, h, hadvance]

/-- At the end of the input nothing is consumed, so this does not say where the cursor is then. -/
theorem accept_of_eq {kind : TokenKind} {c : Cursor} (h : c.peek.kind = kind) :
    accept kind c = .ok true c.advance := by
  simp [accept, h]

theorem accept_of_ne {kind : TokenKind} {c : Cursor} (h : c.peek.kind ≠ kind) :
    accept kind c = .ok false c := by
  simp [accept, h]

theorem expect_cons {s : Symbol} (h : t.kind = .symbol s) :
    expect s ⟨previous, t :: rest⟩ = .ok () ⟨some t, rest⟩ := by
  unfold expect
  rw [bind_run_of_ok (accept_cons previous rest h (by simp))]
  rfl

/-- The token after the next one is next once that is consumed. -/
theorem peek_advance {kind : TokenKind} {c : Cursor} (h : c.peek.kind ≠ .eof)
    (hsecond : (c.rest.drop 1).head?.map (·.kind) = some kind) : c.advance.peek.kind = kind := by
  obtain ⟨previous, rest⟩ := c
  match rest with
  | [] => cases hsecond
  | [_] => cases hsecond
  | t :: u :: more =>
    have ht : t.kind ≠ .eof := h
    simpa [Cursor.advance, ht, Cursor.peek] using hsecond

end Tokens
end Scriptlet.Parser
