import Scriptlet.Proofs.ScanSteps

/-!
# Rendering of tokens

Tokens are rendered on one line: the lexeme and a space, without the space where a string literal
goes on behind the token, and text with its special characters escaped.  Scanning the line gives
back the kinds of the tokens (`scan_inverts_rendering`), whatever blanks, comments and spellings of
text the tokens came from.

The lexemes and the escapes are those of §4.1 of the specification.
-/

namespace Scriptlet

/-! ## 1. Rendering

Every character that an escape stands for is escaped, also where that is not needed. -/

def escape : Char → List Char
  | '"' => ['\\', '"']
  | '\\' => ['\\', '\\']
  | '{' => ['\\', '{']
  | '}' => ['\\', '}']
  | '\n' => ['\\', 'n']
  | '\t' => ['\\', 't']
  | '\r' => ['\\', 'r']
  | '\x00' => ['\\', '0']
  | c => [c]

def Token.rendered (t : Token) : List Char :=
  match t.kind with
  | .strOpen | .interpClose => t.lexeme.toList
  | .strText text => text.toList.flatMap escape
  | .eof => []
  | _ => t.lexeme.toList ++ [' ']

def Token.render (ts : List Token) : String := String.ofList (ts.flatMap Token.rendered)

namespace Scan

theorem written_escape (text : List Char) : Written text (text.flatMap escape) := by
  induction text with
  | nil => exact .nil
  | cons c text ih =>
    rw [List.flatMap_cons, escape.eq_def]
    split
    -- any other character, which stands for itself
    case h_9 hquote hbackslash hopen hclose _ _ _ _ =>
      exact .plain hquote hbackslash hopen (fun hc => absurd hc hclose) ih
    all_goals exact .escaped rfl ih

theorem newline_notMem_escape (c : Char) : '\n' ∉ escape c := by
  rw [escape.eq_def]
  split
  case h_9 _ _ _ _ hnewline _ _ _ => simpa [eq_comm] using hnewline
  all_goals decide

theorem rendered_token_of_isPlain {kind : TokenKind} (h : kind.isPlain = true) (w : List Char)
    (p : Position) :
    (token kind w p).rendered = w ++ [' '] := by
  unfold Token.rendered
  split <;> simp_all [token, TokenKind.isPlain]

theorem flatMap_rendered_textToken (text : List Char) (p : Position) :
    (textToken text p).flatMap Token.rendered = text.flatMap escape := by
  cases text with
  | nil => rfl
  | cons c text => simp [textToken, token, Token.rendered]

theorem map_kind_textToken (text : List Char) (p q : Position) :
    (textToken text p).map (·.kind) = (textToken text q).map (·.kind) := by
  cases text <;> rfl

/-! ## 2. Lexemes in front of a space

A lexeme is the longest one at its place, so what was read stays the longest in front of a character
that continues nothing. -/

theorem takeWhile_append_mark {p : Char → Bool} {w : List Char} {mark : Char}
    (hw : ∀ c ∈ w, p c = true) (hmark : p mark = false) (rest : List Char) :
    (w ++ mark :: rest).takeWhile p = w := by
  rw [List.takeWhile_append_of_pos hw, List.takeWhile_cons_of_neg (by simp [hmark]),
    List.append_nil]

theorem dropWhile_append_mark {p : Char → Bool} {w : List Char} {mark : Char}
    (hw : ∀ c ∈ w, p c = true) (hmark : p mark = false) (rest : List Char) :
    (w ++ mark :: rest).dropWhile p = mark :: rest := by
  rw [List.dropWhile_append_of_pos hw, List.dropWhile_cons_of_neg (by simp [hmark])]

theorem numberLexeme_append_space (cs rest : List Char) :
    numberLexeme (numberLexeme cs ++ ' ' :: rest) = numberLexeme cs := by
  rcases numberLexeme_cases cs with hdigits | ⟨whole, d, fraction, hcs, hwhole, hfraction⟩
  · generalize numberLexeme cs = w at hdigits
    have hspace : ' '.isDigit = false := by decide
    simp [numberLexeme, takeWhile_append_mark hdigits hspace, dropWhile_append_mark hdigits hspace]
  · have hpoint : '.'.isDigit = false := by decide
    have hd : d.isDigit = true := hfraction d List.mem_cons_self
    rw [hcs]
    unfold numberLexeme
    simp only [List.append_assoc, List.cons_append, takeWhile_append_mark hwhole hpoint,
      dropWhile_append_mark hwhole hpoint, hd, if_true]
    rw [← List.cons_append, takeWhile_append_mark hfraction (by decide)]

/-- No symbol before it in the table begins the spelling of a symbol. -/
theorem symbolAt?_spelling (s : Symbol) : symbolAt? s.spelling.toList = some s := by
  have hall : ∀ s ∈ Symbol.all, symbolAt? s.spelling.toList = some s := by decide +kernel
  exact hall s (by cases s <;> decide)

theorem startsBlank_space (rest : List Char) : StartsBlank (' ' :: rest) := by
  intro c hc
  cases hc
  decide

theorem symbolAt?_append_space (s : Symbol) (rest : List Char) :
    symbolAt? (s.spelling.toList ++ ' ' :: rest) = some s := by
  rw [symbolAt?_append_blank (startsBlank_space rest), symbolAt?_spelling]

/-- A space ends every lexeme, so that what followed it before does not matter. -/
theorem Lexeme.before_space {kind : TokenKind} {w rest : List Char} (h : Lexeme kind w rest)
    (rest' : List Char) :
    Lexeme kind w (' ' :: rest') := by
  cases h with
  | number hdigit hlexeme =>
    refine .number hdigit ?_
    rw [← List.cons_append, ← hlexeme]
    exact numberLexeme_append_space _ rest'
  | @word c cs _ hword hlexeme =>
    have hall : ∀ c ∈ cs, continuesWord c = true := by
      rw [← hlexeme]
      exact List.all_eq_true.1 List.all_takeWhile
    exact .word hword (takeWhile_append_mark hall (by decide) rest')
  | symbol hopen hclose _ _ =>
    exact .symbol hopen hclose (symbolAt?_append_space _ rest') fun _ => by simp

/-! ## 3. Scanning what is rendered

The columns change, so the states of the two scans agree up to the columns of open literals. -/

/-- The two lists open the same brackets, with string literals at any columns. -/
inductive SameShape : List Mode → List Mode → Prop where
  | nil : SameShape [] []
  | text {opened opened' : Nat} {modes modes' : List Mode} :
      SameShape modes modes' → SameShape (.text opened :: modes) (.text opened' :: modes')
  | interp {depth : Nat} {modes modes' : List Mode} :
      SameShape modes modes' → SameShape (.interp depth :: modes) (.interp depth :: modes')

theorem SameShape.inCode {modes modes' : List Mode} (h : SameShape modes modes')
    (hcode : InCode modes) :
    InCode modes' := by
  cases h with
  | nil => trivial
  | text _ => exact hcode.elim
  | interp _ => trivial

theorem SameShape.brace {modes modes' after : List Mode} {c : Char} {kind : TokenKind}
    (h : SameShape modes modes') (hbrace : Brace c kind modes after) :
    ∃ after', Brace c kind modes' after' ∧ SameShape after after' := by
  cases hbrace with
  | openOutside => cases h; exact ⟨[], .openOutside, .nil⟩
  | openInside => cases h with | interp h => exact ⟨_, .openInside, .interp h⟩
  | closeOutside => cases h; exact ⟨[], .closeOutside, .nil⟩
  | closeInside => cases h with | interp h => exact ⟨_, .closeInside, .interp h⟩
  | closeInterp => cases h with | interp h => exact ⟨_, .closeInterp, h⟩

/-- Wherever a line goes on with the rendered tokens, it is scanned to its end and gives tokens of
the same kinds. -/
def Rescans (modes : List Mode) (ts : List Token) : Prop :=
  ∀ p modes', SameShape modes modes' →
    ∃ us, line p ⟨modes', false⟩ (ts.flatMap Token.rendered) = .ok (us, false) ∧
      us.map (·.kind) = ts.map (·.kind)

theorem Reads.line_eq_ok {p : Position} {s s' : State} {taken rest : List Char}
    {tokens more : List Token} {b : Bool} (h : Reads p s taken rest tokens s')
    (hrest : line (p.right taken.length) s' rest = .ok (more, b)) :
    line p s (taken ++ rest) = .ok (tokens ++ more, b) := by
  rw [line_of_reads h, hrest]
  rfl

/-- A step that leaves a line with rendered tokens is followed by tokens of their kinds. -/
theorem Rescans.after {p : Position} {s : State} {w : List Char} {now more : List Token}
    {modes modes' : List Mode} (h : Rescans modes more) (hshape : SameShape modes modes')
    (hread : Reads p s w (more.flatMap Token.rendered) now ⟨modes', false⟩) :
    ∃ us, line p s (w ++ more.flatMap Token.rendered) = .ok (us, false) ∧
      us.map (·.kind) = (now ++ more).map (·.kind) := by
  obtain ⟨us, hline, hkinds⟩ := h (p.right w.length) modes' hshape
  exact ⟨now ++ us, hread.line_eq_ok hline, by simp [hkinds]⟩

theorem Rescans.after_space {p : Position} {s : State} {w : List Char} {now more : List Token}
    {modes modes' : List Mode} (h : Rescans modes more) (hshape : SameShape modes modes')
    (hcode : InCode modes)
    (hread : Reads p s w (' ' :: more.flatMap Token.rendered) now ⟨modes', false⟩) :
    ∃ us, line p s (w ++ ' ' :: more.flatMap Token.rendered) = .ok (us, false) ∧
      us.map (·.kind) = (now ++ more).map (·.kind) := by
  obtain ⟨us, hline, hkinds⟩ :=
    h.after hshape (.blank (p := p.right w.length) (c := ' ') (hshape.inCode hcode) rfl)
  exact ⟨now ++ us, hread.line_eq_ok hline, by simp [hkinds]⟩

/-- A step is repeated when its tokens are scanned again. -/
theorem Reads.rescans {p : Position} {s s' : State} {taken rest : List Char}
    {tokens more : List Token} (h : Reads p s taken rest tokens s') (hs : Nested s.modes)
    (hmore : Rescans s'.modes more) :
    Rescans s.modes (tokens ++ more) := by
  cases h with
  | commentEnd _ | commentLine _ _ | blank _ _ | lineComment _ | commentStart _ => exact hmore
  | @lexeme modes kind _ _ hcode hlexeme =>
    intro q modes' hshape
    obtain ⟨us, hline, hkinds⟩ := hmore.after_space hshape hcode
      (.lexeme (p := q) (hshape.inCode hcode) (hlexeme.before_space _))
    refine ⟨_, ?_, hkinds⟩
    simpa [rendered_token_of_isPlain hlexeme.isPlain.1] using hline
  | @brace modes after c kind _ hbrace =>
    intro q modes' hshape
    obtain ⟨after', hbrace', hshape'⟩ := hshape.brace hbrace
    -- text may follow the end of an embedded expression, so no space is written there
    rcases hbrace.cases_after with rfl | ⟨hplain, hcode⟩
    · obtain ⟨us, hline, hkinds⟩ := hmore.after hshape' (.brace (p := q) hbrace')
      refine ⟨_, ?_, hkinds⟩
      simpa [token, Token.rendered] using hline
    · obtain ⟨us, hline, hkinds⟩ := hmore.after_space hshape' hcode (.brace (p := q) hbrace')
      refine ⟨_, ?_, hkinds⟩
      simpa [rendered_token_of_isPlain hplain] using hline
  | strOpen hcode =>
    intro q modes' hshape
    obtain ⟨us, hline, hkinds⟩ :=
      hmore.after (.text hshape) (.strOpen (p := q) (hshape.inCode hcode))
    refine ⟨_, ?_, hkinds⟩
    simpa [token, Token.rendered] using hline
  | @strClose opened outer text w _ _ =>
    rintro q _ (_ | hshape)
    rcases hs with _ | ⟨hcode, -⟩
    obtain ⟨us, hline, hkinds⟩ :=
      hmore.after_space hshape hcode (.strClose (p := q) (written_escape text))
    refine ⟨_, ?_, by simpa [map_kind_textToken text p q, token] using hkinds⟩
    simpa [flatMap_rendered_textToken, token, Token.rendered] using hline
  | @interpOpen opened outer text w _ _ _ =>
    rintro q _ (_ | hshape)
    -- the space keeps a brace of the embedded expression apart from the brace that opens it
    obtain ⟨us, hline, hkinds⟩ := hmore.after_space (.interp (.text hshape)) trivial
      (.interpOpen (p := q) (written_escape text) (by simp))
    refine ⟨_, ?_, by simpa [map_kind_textToken text p q, token] using hkinds⟩
    simpa [flatMap_rendered_textToken, token, Token.rendered] using hline

/-- Nothing that is rendered holds an end of a line. -/
theorem Reads.newline_notMem_rendered {p : Position} {s s' : State} {taken rest : List Char}
    {tokens : List Token} (h : Reads p s taken rest tokens s') (htaken : '\n' ∉ taken) :
    '\n' ∉ tokens.flatMap Token.rendered := by
  cases h with
  | commentEnd _ | commentLine _ _ | blank _ _ | lineComment _ | commentStart _ =>
    exact List.not_mem_nil
  | lexeme _ hlexeme => simpa [rendered_token_of_isPlain hlexeme.isPlain.1] using htaken
  | brace hbrace =>
    rcases hbrace.cases_after with rfl | ⟨hplain, -⟩
    · simpa [token, Token.rendered] using htaken
    · simpa [rendered_token_of_isPlain hplain] using htaken
  | strOpen _ => simp [token, Token.rendered]
  | strClose _ => simp [flatMap_rendered_textToken, newline_notMem_escape, token, Token.rendered]
  | interpOpen _ _ =>
    simp [flatMap_rendered_textToken, newline_notMem_escape, token, Token.rendered]

theorem linesFrom_rescans {n : Nat} {b : Bool} {source : List Char} {lines : List (List Char)}
    {tokens : List Token} (hsource : SplitsInto source lines)
    (h : linesFrom n b lines = .ok tokens) :
    Rescans [] tokens ∧ '\n' ∉ tokens.flatMap Token.rendered := by
  refine linesFrom_induction
    (P := fun _ s _ tokens => Rescans s.modes tokens ∧ '\n' ∉ tokens.flatMap Token.rendered)
    ?_ ?_ ?_ hsource h
  · rintro - -
    refine ⟨?_, List.not_mem_nil⟩
    rintro p _ ⟨⟩
    exact ⟨[], by rw [List.flatMap_nil, line]; rfl, rfl⟩
  · intro _ _ _ _ _ _ h
    exact h
  · rintro p s taken rest tail tokens s' more hs htaken - hreads ⟨hmore, hnewline⟩
    refine ⟨hreads.rescans hs hmore, ?_⟩
    rw [List.flatMap_append, List.mem_append, not_or]
    exact ⟨hreads.newline_notMem_rendered htaken, hnewline⟩

/-- A text without an end of a line is scanned like a line. -/
theorem scan_of_line {cs : List Char} {tokens : List Token} {b : Bool} (hcs : '\n' ∉ cs)
    (h : line ⟨1, 1⟩ ⟨[], false⟩ cs = .ok (tokens, b)) :
    ∃ last, last.kind = .eof ∧ Token.scan (String.ofList cs) = .ok (tokens ++ [last]) := by
  have hlines := splitsInto_lines cs
  unfold Token.scan
  simp only [String.toList_ofList]
  generalize Text.lines cs = lines at hlines
  cases hlines with
  | nil =>
    rw [line] at h
    obtain ⟨rfl, -⟩ := Prod.mk.inj (Except.ok.inj h)
    exact ⟨⟨.eof, "", endPosition []⟩, rfl, rfl⟩
  | last _ _ =>
    refine ⟨⟨.eof, "", endPosition [cs]⟩, rfl, ?_⟩
    simp [linesFrom, h, bind, Except.bind, pure, Except.pure]
  | line _ hending _ =>
    rcases hending with rfl | rfl <;> simp at hcs

end Scan

/-- The tokens of a source, rendered on one line, are scanned again to tokens of the same kinds with
the same values, without an error. -/
theorem scan_inverts_rendering {source : String} {tokens : List Token}
    (h : Token.scan source = .ok tokens) :
    '\n' ∉ (Token.render tokens).toList ∧
    ∃ again, Token.scan (Token.render tokens) = .ok again ∧
      again.map (·.kind) = tokens.map (·.kind) := by
  obtain ⟨body, hbody, rfl⟩ := Scan.scan_eq_ok h
  obtain ⟨hrescans, hnewline⟩ := Scan.linesFrom_rescans (Scan.splitsInto_lines source.toList) hbody
  obtain ⟨us, hline, hkinds⟩ := hrescans ⟨1, 1⟩ [] .nil
  obtain ⟨last, hlast, hscan⟩ := Scan.scan_of_line hnewline hline
  have hrender : Token.render (body ++ [⟨.eof, "", Scan.endPosition (Text.lines source.toList)⟩]) =
      String.ofList (body.flatMap Token.rendered) := by
    simp [Token.render, Token.rendered]
  rw [hrender]
  exact ⟨by simpa using hnewline, us ++ [last], hscan, by simp [hkinds, hlast]⟩

theorem nestedSource_rescans :
    Token.scan Scan.nestedSource = .ok Scan.nestedTokens ∧
    Token.render Scan.nestedTokens = "x + \"\\\x7b\x7b \x7b \"c\" \x7d \x7d\\\x7d\\t\" " ∧
    ∃ again, Token.scan (Token.render Scan.nestedTokens) = .ok again ∧
      again.map (·.kind) = Scan.nestedTokens.map (·.kind) :=
  ⟨Scan.scan_nestedSource, rfl, (scan_inverts_rendering Scan.scan_nestedSource).2⟩

end Scriptlet
