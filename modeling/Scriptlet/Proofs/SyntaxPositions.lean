import Scriptlet.Proofs.LineComposition
import Scriptlet.Proofs.ParserProgress

/-!
# Syntax errors point into the source

The scanner refuses a source at a place that it comes to by its steps (`Scan.Comes`,
`Scan.ComesTo`), or at the opening quote that it came to before.  A parser refuses the tokens at a
cursor that it reaches.  Such a cursor stands in front of a token, or it has consumed all the
tokens; then the last one is no text of a literal, so that its lexeme is as wide as its place in the
source.

Errors with the place that they name are §7 and §10.2 of the specification.
-/

namespace Scriptlet

/-! ## 1. Places in a source

Lines and columns count from one, and a line of `n` characters has `n + 1` places. -/

namespace Text

/-- The place is in one of the lines, in front of a character or right behind the last one. -/
structure Holds (source : List Char) (p : Position) : Prop where
  one_le_line : 1 ≤ p.line
  line_le : p.line ≤ (lines source).length
  one_le_column : 1 ≤ p.column
  column_le : p.column ≤ ((lines source).getD (p.line - 1) []).length + 1

section Line

variable {source line : List Char} {before after : List (List Char)} {k : Nat}

theorem getD_lines (h : lines source = before ++ line :: after) :
    (lines source).getD before.length [] = line := by
  rw [h, List.getD_eq_getElem?_getD]
  simp

theorem holds_of_lines (h : lines source = before ++ line :: after) (hk : k ≤ line.length) :
    Holds source ⟨before.length + 1, k + 1⟩ where
  one_le_line := Nat.succ_pos _
  line_le := by simp [h]
  one_le_column := Nat.succ_pos _
  column_le := by
    simp only [Nat.add_sub_cancel, getD_lines h]
    omega

theorem restOfLine_of_lines (h : lines source = before ++ line :: after) (k : Nat) :
    restOfLine source ⟨before.length + 1, k + 1⟩ = line.drop k := by
  rw [restOfLine, getD_lines h]

end Line

/-- Where something stands in a line, the places up to its end are in the line. -/
theorem holds_of_prefix {source w : List Char} {p : Position} (h : w <+: restOfLine source p)
    (hw : w ≠ []) {k : Nat} (hk : k ≤ w.length) : Holds source (p.right k) := by
  have hlength := h.length_le
  have hpos := List.length_pos_iff.2 hw
  obtain ⟨line, column⟩ := p
  cases line with
  | zero => exact absurd (List.prefix_nil.1 h) hw
  | succ line =>
    cases column with
    | zero => exact absurd (List.prefix_nil.1 h) hw
    | succ column =>
      rw [restOfLine, List.length_drop] at hlength
      have hline : line < (lines source).length := by
        refine Nat.lt_of_not_le fun hle => ?_
        rw [List.getD_eq_getElem?_getD, List.getElem?_eq_none hle, Option.getD_none,
          List.length_nil] at hlength
        omega
      refine ⟨Nat.succ_pos line, hline, ?_, ?_⟩
      · simp only [Position.right]
        omega
      · simp only [Position.right, Nat.add_sub_cancel]
        omega

end Text

/-! ## 2. Where the scanner comes to

States are reached by the same steps that read tokens, so a literal that is open has been opened on
the way. -/

namespace Scan

/-- By its steps in the line `cs` with the number `n`, the scanner comes to `p` in the state `s`,
before the characters `rest`. -/
inductive Comes (n : Nat) (comment : Bool) (cs : List Char) :
    Position → State → List Char → Prop where
  | start : Comes n comment cs ⟨n, 1⟩ ⟨[], comment⟩ cs
  | step {p : Position} {s s' : State} {taken rest : List Char} {tokens : List Token} :
      Comes n comment cs p s (taken ++ rest) → Reads p s taken rest tokens s' →
      Comes n comment cs (p.right taken.length) s' rest

section Comes

variable {n : Nat} {b : Bool} {cs rest : List Char} {p : Position} {s : State}

theorem Comes.split (h : Comes n b cs p s rest) :
    ∃ before, cs = before ++ rest ∧ p = ⟨n, before.length + 1⟩ := by
  induction h with
  | start => exact ⟨[], rfl, rfl⟩
  | @step p s s' taken rest tokens _ _ ih =>
    obtain ⟨before, rfl, rfl⟩ := ih
    refine ⟨before ++ taken, by simp, ?_⟩
    simp only [Position.right, List.length_append]
    congr 1
    omega

theorem Brace.mem_of_mem {modes modes' : List Mode} {c : Char} {kind : TokenKind}
    (h : Brace c kind modes modes') {opened : Nat} (hmem : .text opened ∈ modes') :
    .text opened ∈ modes := by
  cases h with
  | openOutside | closeOutside => exact hmem
  | openInside | closeInside =>
    cases hmem with
    | tail _ hmem => exact .tail _ hmem
  | closeInterp => exact .tail _ hmem

/-- Each open literal has an opening quote, which the scanner came to in code. -/
theorem Comes.opened (h : Comes n b cs p s rest) {opened : Nat} (hmem : .text opened ∈ s.modes) :
    ∃ modes more, InCode modes ∧ Comes n b cs ⟨n, opened⟩ ⟨modes, false⟩ ('"' :: more) := by
  induction h with
  | start => cases hmem
  | step hcomes hreads ih =>
    cases hreads with
    | commentEnd _ | commentLine _ _ | blank _ _ | lineComment _ | commentStart _ | lexeme _ _ =>
      exact ih hmem
    | brace hbrace => exact ih (hbrace.mem_of_mem hmem)
    | @strOpen modes _ hcode =>
      -- The literal that this step opens, or one that was open before.
      rcases List.mem_cons.1 hmem with heq | hmem
      · cases heq
        obtain ⟨before, -, hp⟩ := hcomes.split
        rw [hp] at hcomes ⊢
        exact ⟨modes, _, hcode, hcomes⟩
      · exact ih hmem
    | strClose _ => exact ih (List.mem_cons_of_mem _ hmem)
    | interpOpen _ _ => exact ih (by simpa using hmem)

end Comes

/-- In a source the scanner comes to `p` in the state `s`, before what is left of the line. -/
def ComesTo (source : List Char) (p : Position) (s : State) (rest : List Char) : Prop :=
  ∃ before line after tokens, Text.lines source = before ++ line :: after ∧
    linesFrom 1 false before = .ok tokens ∧
    Comes (before.length + 1) (openAfter 1 false before) line p s rest

def OpensLiteral (source : List Char) (p : Position) : Prop :=
  ∃ modes more, InCode modes ∧ ComesTo source p ⟨modes, false⟩ ('"' :: more)

theorem ComesTo.place {source rest : List Char} {p : Position} {s : State}
    (h : ComesTo source p s rest) {k : Nat} (hk : k ≤ rest.length) :
    Text.Holds source (p.right k) ∧ Text.restOfLine source (p.right k) = rest.drop k := by
  obtain ⟨before, line, after, tokens, hlines, -, hcomes⟩ := h
  obtain ⟨front, rfl, rfl⟩ := hcomes.split
  have hright : Position.right ⟨before.length + 1, front.length + 1⟩ k =
      ⟨before.length + 1, front.length + k + 1⟩ := by
    simp only [Position.right]
    congr 1
    omega
  rw [hright]
  constructor
  · apply Text.holds_of_lines hlines
    rw [List.length_append]
    omega
  · rw [Text.restOfLine_of_lines hlines, List.drop_append]
    simp

/-! ## 3. Where the scanner stops

A step fails for one of three reasons, and the end of a line is one more place to fail with an open
literal. -/

theorem error_of_map {α β : Type} {x : Except SyntaxError α} {f : α → β} {e : SyntaxError}
    (h : x.map f = .error e) : x = .error e := by
  cases x with
  | ok a => cases h
  | error e' => exact congrArg Except.error (Except.error.inj h)

theorem error_of_ite {α : Type} {q : Prop} [Decidable q] {x y : Except SyntaxError α}
    {e : SyntaxError} (h : (if q then x else y) = .error e) (hx : x ≠ .error e) : y = .error e := by
  by_cases hq : q
  · rw [if_pos hq] at h
    exact absurd h hx
  · rwa [if_neg hq] at h

/-- Whatever begins something is taken, and so are braces where there is none to match. -/
theorem unexpectedCharacter_of_codeStep {p : Position} {modes : List Mode} {c : Char}
    {rest : List Char} {e : SyntaxError} (h : codeStep p modes c rest = .error e) :
    e = ⟨.unexpectedCharacter c, p⟩ := by
  unfold codeStep at h
  -- blanks, the two comments, quotes, numbers and words
  iterate 6 replace h := error_of_ite h nofun
  -- the two braces
  iterate 2 replace h := error_of_ite h (by split <;> nofun)
  split at h
  · cases h
  · exact (Except.error.inj h).symm

/-- Why a step is refused: a character that begins nothing, a literal that does not end in its line,
or a backslash before a character that it does not go with. -/
inductive Stuck (p : Position) (s : State) (rest : List Char) : SyntaxError → Prop where
  | character {c : Char} {more : List Char} :
      rest = c :: more → Stuck p s rest ⟨.unexpectedCharacter c, p⟩
  | literal {opened : Nat} :
      .text opened ∈ s.modes → Stuck p s rest ⟨.unterminatedString, ⟨p.line, opened⟩⟩
  | escape {w more : List Char} {c : Char} : rest = w ++ '\\' :: c :: more →
      Stuck p s rest ⟨.unknownEscape c, p.right w.length⟩

theorem stuck_of_textStep {p : Position} {opened : Nat} {outer : List Mode} {c : Char}
    {rest : List Char} {e : SyntaxError} (h : textStep p opened outer c rest = .error e) :
    Stuck p ⟨.text opened :: outer, false⟩ (c :: rest) e := by
  obtain ⟨w, tail, hcs, hwidth, -, hstop⟩ := describes_textRun (c :: rest)
  unfold textStep at h
  simp only [hwidth] at h
  generalize (textRun (c :: rest)).stop = stop at h hstop
  cases hstop with
  | quote => cases h
  | brace _ => cases h
  | badEscape _ =>
    obtain rfl := Except.error.inj h
    exact .escape hcs
  | endOfLine | backslash =>
    obtain rfl := Except.error.inj h
    exact .literal List.mem_cons_self

theorem stuck_of_step {p : Position} {s : State} {c : Char} {rest : List Char} {e : SyntaxError}
    (h : step p s c rest = .error e) : Stuck p s (c :: rest) e := by
  obtain ⟨modes, comment⟩ := s
  unfold step at h
  cases comment with
  | true =>
    simp only [if_true] at h
    split at h <;> cases h
  | false =>
    simp only [Bool.false_eq_true, if_false] at h
    split at h
    · exact stuck_of_textStep h
    · obtain rfl := unexpectedCharacter_of_codeStep h
      exact .character rfl

theorem mem_of_openString? {modes : List Mode} {opened : Nat}
    (h : openString? modes = some opened) :
    .text opened ∈ modes := by
  obtain ⟨mode, hmem, hmode⟩ := List.exists_of_findSome?_eq_some h
  cases mode with
  | text _ =>
    cases hmode
    exact hmem
  | interp _ => cases hmode

/-- A line that is refused is refused at a place that the scanner comes to. -/
theorem Comes.stuck {n : Nat} {b : Bool} {cs rest : List Char} {p : Position} {s : State}
    {e : SyntaxError} (h : Comes n b cs p s rest) (hline : line p s rest = .error e) :
    ∃ p' s' rest', Comes n b cs p' s' rest' ∧ Stuck p' s' rest' e := by
  -- on the number of characters that are left, as the scanner itself goes
  induction hlength : rest.length using Nat.strongRecOn generalizing p s rest with
  | ind length ih =>
    cases rest with
    | nil =>
      rw [line] at hline
      split at hline
      · next opened hopen =>
        obtain rfl := Except.error.inj hline
        exact ⟨p, s, [], h, .literal (mem_of_openString? hopen)⟩
      · cases hline
    | cons c rest =>
      cases hstep : Scan.step p s c rest with
      | error e' =>
        rw [line, hstep] at hline
        obtain rfl := Except.error.inj hline
        exact ⟨p, s, c :: rest, h, stuck_of_step hstep⟩
      | ok st =>
        obtain ⟨taken, left, hcs, -, hreads⟩ := took_of_step hstep
        rw [hcs] at h hline
        have hleft : line (p.right taken.length) st.state left = .error e := by
          rw [line_of_reads hreads] at hline
          exact error_of_map hline
        have hshorter : left.length < length := by
          have := List.length_pos_iff.2 hreads.taken_ne_nil
          rw [← hlength, hcs, List.length_append]
          omega
        exact ih left.length hshorter (h.step hreads) hleft rfl

/-- The lines in front of the one that is refused are scanned. -/
theorem exists_line_of_linesFrom_error {n : Nat} {b : Bool} {lines : List (List Char)}
    {e : SyntaxError} (h : linesFrom n b lines = .error e) :
    ∃ before cs after tokens, lines = before ++ cs :: after ∧ linesFrom n b before = .ok tokens ∧
      line ⟨n + before.length, 1⟩ ⟨[], openAfter n b before⟩ cs = .error e := by
  induction lines generalizing n b with
  | nil => cases h
  | cons cs lines ih =>
    rw [linesFrom] at h
    cases hline : line ⟨n, 1⟩ ⟨[], b⟩ cs with
    | error e' =>
      rw [hline] at h
      obtain rfl := Except.error.inj h
      exact ⟨[], cs, lines, [], rfl, rfl, hline⟩
    | ok result =>
      rw [hline] at h
      cases hmore : linesFrom (n + 1) result.2 lines with
      | ok tokens => simp [bind, Except.bind, hmore, pure, Except.pure] at h
      | error e' =>
        obtain rfl : e' = e := by simpa [bind, Except.bind, hmore] using h
        obtain ⟨before, cs', after, tokens, rfl, hbefore, herror⟩ := ih hmore
        refine ⟨cs :: before, cs', after, result.1 ++ tokens, rfl, ?_, ?_⟩
        · simp [linesFrom, hline, hbefore, bind, Except.bind, pure, Except.pure]
        · rw [openAfter_cons hline, List.length_cons, Nat.add_comm before.length 1, ← Nat.add_assoc]
          exact herror

end Scan

/-- What stands at the place of a fault that the scanner finds. -/
def SyntaxFault.Marks (source : List Char) (p : Position) : SyntaxFault → Prop
  | .unexpectedCharacter c => (Text.restOfLine source p).head? = some c
  | .unterminatedString => (Text.restOfLine source p).head? = some '"' ∧ Scan.OpensLiteral source p
  | .unknownEscape c => ['\\', c] <+: Text.restOfLine source p
  | _ => False

theorem marks_of_scan_error {source : String} {e : SyntaxError} (h : Token.scan source = .error e) :
    Text.Holds source.toList e.position ∧ e.fault.Marks source.toList e.position := by
  have hlines : Scan.linesFrom 1 false (Text.lines source.toList) = .error e := by
    rw [Scan.scan_eq] at h
    exact Scan.error_of_map h
  obtain ⟨before, cs, after, tokens, hsplit, hbefore, herror⟩ :=
    Scan.exists_line_of_linesFrom_error hlines
  rw [Nat.add_comm] at herror
  obtain ⟨p, s, rest, hcomes, hstuck⟩ := Scan.Comes.start.stuck herror
  have hat : ∀ {p s rest},
      Scan.Comes (before.length + 1) (Scan.openAfter 1 false before) cs p s rest →
      Scan.ComesTo source.toList p s rest :=
    fun hcomes => ⟨before, cs, after, tokens, hsplit, hbefore, hcomes⟩
  cases hstuck with
  | character hrest =>
    obtain ⟨hholds, hline⟩ := (hat hcomes).place (Nat.zero_le _)
    refine ⟨hholds, ?_⟩
    rw [hrest] at hline
    exact congrArg List.head? hline
  | literal hopen =>
    obtain ⟨front, -, rfl⟩ := hcomes.split
    obtain ⟨modes, more, hcode, hquote⟩ := hcomes.opened hopen
    obtain ⟨hholds, hline⟩ := (hat hquote).place (Nat.zero_le _)
    exact ⟨hholds, congrArg List.head? hline, modes, more, hcode, hat hquote⟩
  | @escape w more c hrest =>
    obtain ⟨hholds, hline⟩ := (hat hcomes).place (k := w.length) (by simp [hrest])
    refine ⟨hholds, more, ?_⟩
    rw [hline, hrest]
    simp

/-! ## 4. Where the parser stops

The place of a token is one that it was scanned at, which the tiling of the source by tokens gives.
-/

section Tokens

variable {source : List Char} {segments : List Segment} {t : Token}

theorem Tiles.holds_position (h : Tiles source segments)
    (ht : t ∈ segments.filterMap Segment.token?) :
    Text.Holds source t.position := by
  obtain ⟨x, hx, htoken⟩ := List.mem_filterMap.1 ht
  cases x with
  | token u w =>
    cases htoken
    obtain ⟨before, after, hsplit⟩ := List.append_of_mem hx
    obtain ⟨-, hne, hprefix⟩ := h.placed before t w after hsplit
    exact Text.holds_of_prefix hprefix hne (Nat.zero_le _)
  | _ => cases htoken

/-- The last token is written with its lexeme: behind the text of a literal there is always a
mark. -/
theorem Tiles.lexeme_of_getLast? (h : Tiles source segments)
    (ht : (segments.filterMap Segment.token?).getLast? = some t) :
    t.lexeme.toList ≠ [] ∧ t.lexeme.toList <+: Text.restOfLine source t.position := by
  obtain ⟨front, hfront⟩ := List.getLast?_eq_some_iff.1 ht
  obtain ⟨xs, ys, rfl, -, hys⟩ := List.filterMap_eq_append_iff.1 hfront
  obtain ⟨blanks, x, after, rfl, -, hx, hafter⟩ := List.filterMap_eq_cons_iff.1 hys
  have hsplit : xs ++ (blanks ++ x :: after) = (xs ++ blanks) ++ x :: after :=
    (List.append_assoc ..).symm
  cases x with
  | token u w =>
    cases hx
    have hmark : t.kind.isText = false := by
      rw [Bool.eq_false_iff]
      intro htext
      obtain ⟨-, y, hy, hkind⟩ := h.texts _ _ _ hsplit htext
      have hmem : y ∈ after := List.mem_of_mem_head? hy
      have hnone := List.filterMap_eq_nil_iff.1 hafter y hmem
      cases y with
      | token _ _ => cases hnone
      | _ => cases hkind
    obtain ⟨-, hne, hprefix⟩ := h.placed _ _ _ _ hsplit
    rw [← h.lexemes t w (by simp) hmark]
    exact ⟨hne, hprefix⟩
  | _ => cases hx

end Tokens

section Cursors

variable {body taken : List Token} {last : Token} {c : Cursor}

theorem Cursor.Moves.peek_mem (h : (ofTokens (body ++ [last])).Moves taken c)
    (hlast : last.kind = .eof) (hend : c.atEnd = false) : c.peek ∈ body := by
  obtain ⟨previous, rest⟩ := c
  cases rest with
  | nil => cases hend
  | cons t rest =>
    have hmem : t ∈ body ++ [last] := by
      rw [show body ++ [last] = taken ++ t :: rest from h.rest]
      simp
    rcases List.mem_append.1 hmem with hmem | hmem
    · exact hmem
    · obtain rfl := List.mem_singleton.1 hmem
      simp [Cursor.atEnd, Cursor.peek, hlast] at hend

/-- At the end all the tokens are consumed. -/
theorem Cursor.Moves.eq_of_atEnd (h : (ofTokens (body ++ [last])).Moves taken c)
    (hlast : last.kind = .eof) (hbody : ∀ t ∈ body, t.kind ≠ .eof) (hend : c.atEnd = true) :
    taken = body := by
  rcases List.append_eq_append_iff.1 h.rest with ⟨more, rfl, hmore⟩ | ⟨more, rfl, hrest⟩
  · cases more with
    | nil => exact List.append_nil _
    | cons t more =>
      obtain ⟨rfl, -⟩ := List.cons.inj hmore
      exact absurd hlast (h.proper last (by simp))
  · cases more with
    | nil => exact (List.append_nil _).symm
    | cons t more =>
      have hpeek : c.peek = t := by simp [Cursor.peek, hrest]
      have hkind : t.kind = .eof := by simpa [Cursor.atEnd, hpeek] using hend
      exact absurd hkind (hbody t (by simp))

end Cursors

/-- An error of the parser is at the next token, or right behind the last one if all of them are
consumed. -/
inductive Cursor.Blames (source : List Char) (tokens : List Token) (c : Cursor) :
    Position → Prop where
  | next : c.atEnd = false → c.peek ∈ tokens → Cursor.Blames source tokens c c.peek.position
  | behind {t : Token} : c.atEnd = true → c.previous = some t → t ∈ tokens →
      t.lexeme.toList <+: Text.restOfLine source t.position →
      Cursor.Blames source tokens c (t.position.right t.lexeme.toList.length)

theorem parse_eof (p : Position) :
    Program.parse [⟨.eof, "", p⟩] = .ok [] ⟨none, [⟨.eof, "", p⟩]⟩ := by
  with_unfolding_all rfl

theorem blames_of_parse_error {source : String} {tokens : List Token} {e : SyntaxError}
    (hscan : Token.scan source = .ok tokens) (hparse : Program.parse tokens = .error e) :
    Text.Holds source.toList e.position ∧ e.fault.ofScanner = false ∧
      ∃ c, (Cursor.ofTokens tokens).Reaches c ∧ c.Blames source.toList tokens e.position := by
  obtain ⟨hfault, c, ⟨taken, hmoves⟩, hposition⟩ := exists_reaches_of_error hparse
  obtain ⟨body, hbody, rfl⟩ := Scan.scan_eq_ok hscan
  have hproper := Scan.linesFrom_kind_ne_eof (Scan.splitsInto_lines source.toList) hbody
  obtain ⟨segments, hchars, rfl, htiled, hcode⟩ :=
    Scan.linesFrom_tileable (Scan.splitsInto_lines source.toList) hbody
  have htiles := htiled.tiles (hcode trivial)
  rw [hchars] at htiles
  cases hend : c.atEnd with
  | false =>
    have hpeek := hmoves.peek_mem rfl hend
    have hplace : e.position = c.peek.position := by
      rw [hposition, Cursor.errorPosition, hend]
    rw [hplace]
    exact ⟨htiles.holds_position hpeek, hfault, c, ⟨taken, hmoves⟩,
      .next hend (List.mem_append_left _ hpeek)⟩
  -- The place right behind the last token, which is at least one character wide.
  | true =>
    have htaken := hmoves.eq_of_atEnd rfl hproper hend
    cases hlast : (segments.filterMap Segment.token?).getLast? with
    | none =>
      -- no token, no error
      rw [List.getLast?_eq_none_iff.1 hlast, List.nil_append, parse_eof] at hparse
      cases hparse
    | some t =>
      have hprevious : c.previous = some t := by
        rw [hmoves.previous, htaken, hlast]
        rfl
      obtain ⟨hne, hprefix⟩ := htiles.lexeme_of_getLast? hlast
      have hplace : e.position = t.position.right t.lexeme.toList.length := by
        have hpos := List.length_pos_iff.2 hne
        rw [hposition, Cursor.errorPosition, hend, hprevious]
        simp only
        rw [← String.length_toList, Nat.max_eq_right hpos]
      rw [hplace]
      refine ⟨Text.holds_of_prefix hprefix hne (Nat.le_refl _), hfault, c, ⟨taken, hmoves⟩, ?_⟩
      exact .behind hend hprevious (List.mem_append_left _ (List.mem_of_getLast? hlast)) hprefix

/-- A source that is refused is refused at a place in one of its lines.  The scanner names what
stands there: the character that begins nothing, the quote that opens a literal, or the backslash.
The parser names the place of a token, or the place right behind the last one when the tokens are
used up. -/
theorem syntax_errors_point_into_source (source : String) :
    (∀ e, Token.scan source = .error e →
      Text.Holds source.toList e.position ∧ e.fault.Marks source.toList e.position) ∧
    ∀ tokens e, Token.scan source = .ok tokens → Program.parse tokens = .error e →
      Text.Holds source.toList e.position ∧ e.fault.ofScanner = false ∧
        ∃ c, (Cursor.ofTokens tokens).Reaches c ∧ c.Blames source.toList tokens e.position :=
  ⟨fun _ => marks_of_scan_error, fun _ _ => blames_of_parse_error⟩

theorem refused_sources_placed :
    (Token.scan "x\n @" = .error ⟨.unexpectedCharacter '@', ⟨2, 2⟩⟩ ∧
      SyntaxFault.Marks "x\n @".toList ⟨2, 2⟩ (.unexpectedCharacter '@')) ∧
    (Token.scan "y = \"a\x7b\"b" = .error ⟨.unterminatedString, ⟨1, 8⟩⟩ ∧
      SyntaxFault.Marks "y = \"a\x7b\"b".toList ⟨1, 8⟩ .unterminatedString) ∧
    (Token.scan "\"ab\\q\"" = .error ⟨.unknownEscape 'q', ⟨1, 4⟩⟩ ∧
      SyntaxFault.Marks "\"ab\\q\"".toList ⟨1, 4⟩ (.unknownEscape 'q')) ∧
    ∃ tokens, Token.scan "[x, \n\n" = .ok tokens ∧
      Program.parse tokens = .error ⟨.missing (.spelled "]") .endOfInput, ⟨1, 4⟩⟩ ∧
      ∃ c, (Cursor.ofTokens tokens).Reaches c ∧ c.Blames "[x, \n\n".toList tokens ⟨1, 4⟩ := by
  have hcharacter : Token.scan "x\n @" = .error ⟨.unexpectedCharacter '@', ⟨2, 2⟩⟩ := by
    with_unfolding_all rfl
  have hliteral : Token.scan "y = \"a\x7b\"b" = .error ⟨.unterminatedString, ⟨1, 8⟩⟩ := by
    with_unfolding_all rfl
  have hescape : Token.scan "\"ab\\q\"" = .error ⟨.unknownEscape 'q', ⟨1, 4⟩⟩ := by
    with_unfolding_all rfl
  have hscan : Token.scan "[x, \n\n" =
      .ok [⟨.symbol .lbracket, "[", ⟨1, 1⟩⟩, ⟨.ident "x", "x", ⟨1, 2⟩⟩,
        ⟨.symbol .comma, ",", ⟨1, 3⟩⟩, ⟨.eof, "", ⟨2, 1⟩⟩] := by
    with_unfolding_all rfl
  refine ⟨⟨hcharacter, ?_⟩, ⟨hliteral, ?_⟩, ⟨hescape, ?_⟩, _, hscan, by with_unfolding_all rfl, ?_⟩
  · exact ((syntax_errors_point_into_source _).1 _ hcharacter).2
  · exact ((syntax_errors_point_into_source _).1 _ hliteral).2
  · exact ((syntax_errors_point_into_source _).1 _ hescape).2
  · exact ((syntax_errors_point_into_source _).2 _ _ hscan (by with_unfolding_all rfl)).2.2

end Scriptlet
