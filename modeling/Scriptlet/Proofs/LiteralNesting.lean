import Scriptlet.Proofs.ScanSteps

/-!
# String literals nest

The tokens of a source are read from the end.  At each place the modes of the scanner say which
brackets are still open, and `Completes` says that the tokens from there on close them one after the
other.  A step of the scanner keeps this, so that the tokens of every source follow the grammar of
literals (`string_tokens_nest`).

The nesting is what §4.1 of the specification asks of the lexer: a stack of embedded expressions,
whose braces balance.
-/

namespace Scriptlet.Scan

/-! ## 1. What a scanner still has to close

The modes of a scanner are brackets that are open, innermost first; the tokens that follow have to
close them in that order. -/

/-- The tokens close all that surrounds them, from the inside out, and all that is inside a literal
stands on line `n`. -/
def Completes (n : Nat) : List Mode → List Token → Prop
  | [], ts => ∃ outer, Items ts outer
  | .text _ :: modes, ts => ∃ parts right more,
      ts = parts ++ right :: more ∧ Parts parts ∧ right.kind = .strClose ∧
      (∀ t ∈ parts ++ [right], t.position.line = n) ∧ Completes n modes more
  | .interp depth :: modes, ts => ∃ inner outer right more,
      ts = inner ++ right :: more ∧ Items inner outer ∧ Balanced depth outer ∧
      right.kind = .interpClose ∧
      (∀ t ∈ inner ++ [right], t.position.line = n) ∧ Completes n modes more

variable {n : Nat}

/-- A token that is no brace opens and closes nothing. -/
theorem Completes.plain {modes : List Mode} {t : Token} {ts : List Token} (hcode : InCode modes)
    (ht : t.kind.isPlain = true) (hopen : t.kind ≠ .symbol .lbrace)
    (hclose : t.kind ≠ .symbol .rbrace) (hline : t.position.line = n) (h : Completes n modes ts) :
    Completes n modes (t :: ts) := by
  rcases modes with _ | ⟨⟨opened⟩ | ⟨depth⟩, modes⟩
  · obtain ⟨outer, h⟩ := h
    exact ⟨t :: outer, .plain ht h⟩
  · exact hcode.elim
  · obtain ⟨inner, outer, right, more, rfl, hitems, hbalanced, hright, hlines, hmore⟩ := h
    refine ⟨t :: inner, t :: outer, right, more, rfl, .plain ht hitems, hbalanced.cons ?_,
      hright, ?_, hmore⟩
    · simp [hopen, hclose]
    · simpa [hline] using hlines

/-- A whole literal is one item of the code around it. -/
theorem Completes.literal {modes : List Mode} {lit ts : List Token} (hcode : InCode modes)
    (hlit : Literal lit) (hline : ∀ t ∈ lit, t.position.line = n) (h : Completes n modes ts) :
    Completes n modes (lit ++ ts) := by
  rcases modes with _ | ⟨⟨opened⟩ | ⟨depth⟩, modes⟩
  · obtain ⟨outer, h⟩ := h
    exact ⟨outer, .literal hlit h⟩
  · exact hcode.elim
  · obtain ⟨inner, outer, right, more, rfl, hitems, hbalanced, hright, hlines, hmore⟩ := h
    refine ⟨lit ++ inner, outer, right, more, by simp, .literal hlit hitems, hbalanced,
      hright, ?_, hmore⟩
    intro t ht
    rw [List.append_assoc, List.mem_append] at ht
    rcases ht with ht | ht
    · exact hline t ht
    · exact hlines t ht

/-- A brace opens or closes one level, or ends an embedded expression. -/
theorem Completes.brace {modes modes' : List Mode} {c : Char} {t : Token} {ts : List Token}
    (hbrace : Brace c t.kind modes modes') (hline : t.position.line = n)
    (h : Completes n modes' ts) :
    Completes n modes (t :: ts) := by
  generalize hkind : t.kind = kind at hbrace
  cases hbrace with
  | openOutside | closeOutside =>
    obtain ⟨outer, h⟩ := h
    exact ⟨t :: outer, .plain (by rw [hkind]; rfl) h⟩
  | openInside | closeInside =>
    obtain ⟨inner, outer, right, more, rfl, hitems, hbalanced, hright, hlines, hmore⟩ := h
    refine ⟨t :: inner, t :: outer, right, more, rfl, .plain (by rw [hkind]; rfl) hitems,
      hbalanced.cons ?_, hright, ?_, hmore⟩
    · simp [hkind]
    · simpa [hline] using hlines
  | closeInterp => exact ⟨[], [], t, ts, rfl, .nil, balanced_nil, hkind, by simpa using hline, h⟩

/-- An opening quote and the parts and the closing quote behind it make a literal. -/
theorem Completes.strOpen {modes : List Mode} {opened : Nat} {t : Token} {ts : List Token}
    (hcode : InCode modes) (ht : t.kind = .strOpen) (hline : t.position.line = n)
    (h : Completes n (.text opened :: modes) ts) :
    Completes n modes (t :: ts) := by
  obtain ⟨parts, right, more, rfl, hparts, hright, hlines, hmore⟩ := h
  have hlit : Literal (t :: (parts ++ [right])) := .mk ht hparts hright fun u hu => by
    rw [hlines u hu, hline]
  have hall : ∀ u ∈ t :: (parts ++ [right]), u.position.line = n := by
    simpa [hline] using hlines
  simpa using hmore.literal hcode hlit hall

/-! ## 2. Parts -/

theorem parts_textToken_append (text : List Char) (p : Position) {ts : List Token}
    (hts : ∀ u ∈ ts.head?, u.kind.isText = false) (h : Parts ts) :
    Parts (textToken text p ++ ts) := by
  cases text with
  | nil => exact h
  | cons c text => exact .text rfl (by simp) hts h

theorem line_of_mem_textToken {text : List Char} {p : Position} {t : Token}
    (ht : t ∈ textToken text p) :
    t.position.line = p.line := by
  cases text with
  | nil => cases ht
  | cons c text =>
    obtain rfl := List.mem_singleton.1 ht
    rfl

/-! ## 3. Steps and runs -/

/-- What is closed behind a step is closed in front of it, with the tokens of the step. -/
theorem Reads.completes {p : Position} {s s' : State} {taken rest : List Char}
    {tokens more : List Token} (h : Reads p s taken rest tokens s')
    (hmore : Completes p.line s'.modes more) :
    Completes p.line s.modes (tokens ++ more) := by
  cases h with
  | commentEnd _ | commentLine _ _ | blank _ _ | lineComment _ | commentStart _ => exact hmore
  | lexeme hcode hlexeme =>
    obtain ⟨hplain, hopen, hclose⟩ := hlexeme.isPlain
    exact hmore.plain hcode hplain hopen hclose rfl
  | brace hbrace => exact hmore.brace hbrace rfl
  | strOpen hcode => exact hmore.strOpen hcode rfl rfl
  | @strClose opened outer text w _ _ =>
    have hparts := parts_textToken_append text p (by simp) .nil
    rw [List.append_nil] at hparts
    refine ⟨textToken text p, token .strClose ['"'] (p.right w.length), more, by simp, hparts,
      rfl, ?_, hmore⟩
    intro t ht
    rcases List.mem_append.1 ht with ht | ht
    · exact line_of_mem_textToken ht
    · obtain rfl := List.mem_singleton.1 ht
      rfl
  | @interpOpen opened outer text w _ _ _ =>
    -- the embedded expression is closed first, then the literal around it
    obtain ⟨inner, plain, right, more, rfl, hitems, hbalanced, hright, hinner, hmore⟩ := hmore
    obtain ⟨parts, close, more, rfl, hparts, hclose, hlines, hmore⟩ := hmore
    let brace := token .interpOpen ['{'] (p.right w.length)
    have hembedded : Parts (brace :: (inner ++ right :: parts)) :=
      .embedded rfl hitems hbalanced hright hparts
    refine ⟨textToken text p ++ brace :: (inner ++ right :: parts), close, more, by simp [brace],
      parts_textToken_append text p (by simp [brace, token, TokenKind.isText]) hembedded,
      hclose, ?_, hmore⟩
    intro t ht
    simp only [List.mem_append, List.mem_cons] at ht hinner hlines
    rcases ht with (ht | rfl | ht | rfl | ht) | ht
    · exact line_of_mem_textToken ht
    · rfl
    · exact hinner t (.inl ht)
    · exact hinner _ (.inr (.inl rfl))
    · exact hlines t (.inl ht)
    · exact hlines t (.inr ht)

/-- At the end of a source nothing is open, and every step keeps what its modes say. -/
theorem linesFrom_completes {n : Nat} {b : Bool} {source : List Char} {lines : List (List Char)}
    {tokens : List Token} (hsource : SplitsInto source lines)
    (h : linesFrom n b lines = .ok tokens) : ∃ outer, Items tokens outer :=
  linesFrom_induction (P := fun p s _ tokens => Completes p.line s.modes tokens)
    (fun _ _ => ⟨[], .nil⟩) (fun _ _ _ _ _ _ h => h)
    (fun _ _ _ _ _ _ _ _ _ _ _ hreads h => hreads.completes h) hsource h

end Scriptlet.Scan

namespace Scriptlet

/-- In every source that scans, quotes and the braces of embedded expressions nest: each literal is
closed on its own line, text and embedded expressions stand directly in a literal and nowhere else,
text is not empty and not beside text, and the plain braces of an embedded expression are
balanced. -/
theorem string_tokens_nest {source : String} {tokens : List Token}
    (h : Token.scan source = .ok tokens) :
    ∃ body outer last, tokens = body ++ [last] ∧ last.kind = .eof ∧ Items body outer := by
  obtain ⟨body, hbody, rfl⟩ := Scan.scan_eq_ok h
  obtain ⟨outer, hitems⟩ := Scan.linesFrom_completes (Scan.splitsInto_lines source.toList) hbody
  exact ⟨body, outer, _, rfl, rfl, hitems⟩

theorem nestedSource_nests :
    Token.scan Scan.nestedSource = .ok Scan.nestedTokens ∧
    ∃ body outer last, Scan.nestedTokens = body ++ [last] ∧ last.kind = .eof ∧ Items body outer :=
  ⟨Scan.scan_nestedSource, string_tokens_nest Scan.scan_nestedSource⟩

end Scriptlet
