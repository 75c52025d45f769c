import Scriptlet.Proofs.LiteralNesting
import Scriptlet.Proofs.ParserDiscipline

/-!
# Scanner and parser agree on string literals

The tokens of a source follow the grammar of literals, and a parser that walks over such tokens
never loses its place: in code it has whole literals in front of it, and inside a literal it has the
rest of that literal.  This is a discipline of cursors (`nestedLiterals`), so that every parser of
the language keeps it.

What the scanner writes for a literal is in §4.1 of the specification, and how the parser reads it
in §4.2.
-/

namespace Scriptlet

/-! ## 1. Cursors in nested tokens

Code is a list of plain tokens and whole literals; what ends it tells how deep the cursor is. -/

/-- What ends the code in front of a cursor: the closing brace of an embedded expression or the end
of the source. -/
def EndsCode (tail : List Token) : Prop :=
  ∃ t more, tail = t :: more ∧ (t.kind = .interpClose ∨ t.kind = .eof)

def Cursor.InCodeUpTo (tail : List Token) (c : Cursor) : Prop :=
  EndsCode tail ∧ ∃ ts outer, Items ts outer ∧ c.rest = ts ++ tail

/-- The cursor stands between two parts of a literal, behind which the tokens `more` stand. -/
def Cursor.InLiteralBefore (more : List Token) (c : Cursor) : Prop :=
  ∃ parts right, Parts parts ∧ right.kind = .strClose ∧ c.rest = parts ++ right :: more

namespace Cursor

variable {c : Cursor} {t : Token} {ts tail more : List Token}

theorem peek_of_rest (h : c.rest = t :: ts) : c.peek = t := by
  simp [peek, h]

theorem rest_advance (h : c.rest = t :: ts) (ht : t.kind ≠ .eof) : c.advance.rest = ts := by
  simp [advance, h, ht]

/-- What can be next in code. -/
theorem InCodeUpTo.cases (h : c.InCodeUpTo tail) :
    (c.rest = tail ∧ (c.peek.kind = .interpClose ∨ c.peek.kind = .eof)) ∨
    (c.peek.kind.isPlain = true ∧ c.advance.InCodeUpTo tail) ∨
    (c.peek.kind = .strOpen ∧
      ∃ more, c.advance.InLiteralBefore more ∧
        ∀ d : Cursor, d.rest = more → d.InCodeUpTo tail) := by
  obtain ⟨hends, ts, outer, hitems, hrest⟩ := h
  cases hitems with
  | nil =>
    obtain ⟨t, more, rfl, ht⟩ := hends
    refine .inl ⟨hrest, ?_⟩
    rwa [peek_of_rest hrest]
  | @plain t ts outer hplain hitems =>
    have ht : t.kind ≠ .eof := by
      intro heof
      rw [heof] at hplain
      cases hplain
    refine .inr (.inl ⟨?_, hends, ts, outer, hitems, rest_advance hrest ht⟩)
    rwa [peek_of_rest hrest]
  | @literal lit ts outer hlit hitems =>
    cases hlit with
    | @mk left right parts hleft hparts hright _ =>
      have hopen : c.rest = left :: (parts ++ right :: (ts ++ tail)) := by simpa using hrest
      refine .inr (.inr ⟨?_, ts ++ tail, ⟨parts, right, hparts, hright, ?_⟩, ?_⟩)
      · rwa [peek_of_rest hopen]
      · exact rest_advance hopen (by simp [hleft])
      · intro d hd
        exact ⟨hends, ts, outer, hitems, hd⟩

/-- What can be next between the parts of a literal. -/
theorem InLiteralBefore.cases (h : c.InLiteralBefore more) :
    (c.peek.kind = .strClose ∧ c.advance.rest = more) ∨
    (∃ text, c.peek.kind = .strText text ∧ c.advance.InLiteralBefore more) ∨
    (c.peek.kind = .interpOpen ∧ ∃ tail, c.advance.InCodeUpTo tail ∧
      ∀ d : Cursor, d.InCodeUpTo tail → d.peek.kind = .interpClose →
        d.advance.InLiteralBefore more) := by
  obtain ⟨parts, right, hparts, hright, hrest⟩ := h
  cases hparts with
  | nil =>
    refine .inl ⟨?_, rest_advance hrest (by simp [hright])⟩
    rwa [peek_of_rest hrest]
  | @text t text parts ht _ _ hparts =>
    refine .inr (.inl ⟨text, ?_, parts, right, hparts, hright, rest_advance hrest (by simp [ht])⟩)
    rwa [peek_of_rest hrest]
  | @embedded left close inner outer parts hleft hinner _ hclose hparts =>
    have hopen : c.rest = left :: (inner ++ close :: (parts ++ right :: more)) := by
      simpa using hrest
    refine .inr (.inr ⟨?_, close :: (parts ++ right :: more), ⟨?_, inner, outer, hinner, ?_⟩, ?_⟩)
    · rwa [peek_of_rest hopen]
    · exact ⟨close, _, rfl, .inl hclose⟩
    · exact rest_advance hopen (by simp [hleft])
    · intro d hd hpeek
      -- the first closing brace in code that a parser stops at is the one of this expression
      rcases hd.cases with ⟨hd, -⟩ | ⟨hplain, -⟩ | ⟨hstring, -⟩
      · exact ⟨parts, right, hparts, hright, rest_advance hd (by simp [hclose])⟩
      · rw [hpeek] at hplain
        cases hplain
      · cases hpeek.symm.trans hstring

theorem InLiteralBefore.continuesString (h : c.InLiteralBefore more) :
    c.peek.kind.continuesString = true := by
  rcases h.cases with ⟨hkind, -⟩ | ⟨text, hkind, -⟩ | ⟨hkind, -⟩
  · rw [hkind]
    rfl
  · rw [hkind]
    rfl
  · rw [hkind]
    rfl

end Cursor

/-! ## 2. The discipline

For each kind of token that a parser may consume, one obligation: two of the three cases of a cursor
do not have that token next, and the third one says what is behind it. -/

/-- Parsers walk over whole literals, and never miss the end of one. -/
def nestedLiterals (last : Token) (hlast : last.kind = .eof) : Discipline where
  Context := List Token
  Frame := List Token
  top := [last]
  Code := Cursor.InCodeUpTo
  Text := Cursor.InLiteralBefore
  Behind := fun more c => c.rest = more
  Refused := fun e => e.fault.wantsEndOfString = false
  plain := by
    intro tail c hc hplain
    rcases hc.cases with ⟨-, hkind⟩ | ⟨-, hnext⟩ | ⟨hkind, -⟩
    · rcases hkind with hkind | hkind <;> rw [hkind] at hplain <;> cases hplain
    · exact hnext
    · rw [hkind] at hplain
      cases hplain
  skip := by
    intro c hc hopen hend
    rcases hc.cases with ⟨hrest, -⟩ | ⟨-, hnext⟩ | ⟨hkind, -⟩
    · rw [Cursor.peek_of_rest hrest] at hend
      exact absurd hlast hend
    · exact hnext
    · exact absurd hkind hopen
  strOpen := by
    intro tail c hc hopen
    rcases hc.cases with ⟨-, hkind⟩ | ⟨hplain, -⟩ | ⟨-, hnext⟩
    · rcases hkind with hkind | hkind <;> cases hkind.symm.trans hopen
    · rw [hopen] at hplain
      cases hplain
    · exact hnext
  strText := by
    intro more c text hc htext
    rcases hc.cases with ⟨hkind, -⟩ | ⟨-, -, hnext⟩ | ⟨hkind, -⟩
    · cases hkind.symm.trans htext
    · exact hnext
    · cases hkind.symm.trans htext
  interpOpen := by
    intro more c hc hopen
    rcases hc.cases with ⟨hkind, -⟩ | ⟨text, hkind, -⟩ | ⟨-, hnext⟩
    · cases hkind.symm.trans hopen
    · cases hkind.symm.trans hopen
    · exact hnext
  strClose := by
    intro more c hc hclose
    rcases hc.cases with ⟨-, hnext⟩ | ⟨text, hkind, -⟩ | ⟨hkind, -⟩
    · exact hnext
    · cases hkind.symm.trans hclose
    · cases hkind.symm.trans hclose
  refused := fun _ hfault _ => hfault
  lost := by
    intro more c hc hother
    rw [hc.continuesString] at hother
    cases hother

/-! ## 3. Where a literal goes on

The claim about every opening quote and closing brace is not about parsing, so it is carried through
the steps of the scanner. -/

/-- Behind every opening quote, and behind every closing brace of an embedded expression, the rest
of the literal follows. -/
def Resumes (ts : List Token) : Prop :=
  ∀ before t rest, ts = before ++ t :: rest → t.kind = .strOpen ∨ t.kind = .interpClose →
    ∃ parts right more, rest = parts ++ right :: more ∧ Parts parts ∧ right.kind = .strClose

theorem Resumes.cons {t : Token} {ts : List Token} (h : Resumes ts)
    (ht : t.kind = .strOpen ∨ t.kind = .interpClose →
      ∃ parts right more, ts = parts ++ right :: more ∧ Parts parts ∧ right.kind = .strClose) :
    Resumes (t :: ts) := by
  intro before u rest hsplit hu
  cases before with
  | nil =>
    obtain ⟨rfl, rfl⟩ := List.cons.inj hsplit
    exact ht hu
  | cons b before => exact h before u rest (List.cons.inj hsplit).2 hu

namespace Scan

theorem resumes_textToken_append (text : List Char) (p : Position) {ts : List Token}
    (h : Resumes ts) :
    Resumes (textToken text p ++ ts) := by
  cases text with
  | nil => exact h
  | cons c text => exact h.cons (by simp [token])

/-- What is closed inside a literal is the rest of that literal. -/
theorem Completes.exists_parts {n opened : Nat} {outer : List Mode} {ts : List Token} (last : Token)
    (h : Completes n (.text opened :: outer) ts) :
    ∃ parts right more, ts ++ [last] = parts ++ right :: more ∧ Parts parts ∧
      right.kind = .strClose := by
  obtain ⟨parts, right, more, rfl, hparts, hright, -⟩ := h
  exact ⟨parts, right, more ++ [last], by simp, hparts, hright⟩

theorem Reads.resumes {p : Position} {s s' : State} {taken rest : List Char}
    {tokens more : List Token} {last : Token} (h : Reads p s taken rest tokens s')
    (hs : Nested s.modes) (hmore : Completes p.line s'.modes more)
    (hresumes : Resumes (more ++ [last])) : Resumes (tokens ++ (more ++ [last])) := by
  cases h with
  | commentEnd _ | commentLine _ _ | blank _ _ | lineComment _ | commentStart _ => exact hresumes
  | lexeme hcode hlexeme =>
    refine hresumes.cons fun hkind => ?_
    obtain ⟨hplain, -⟩ := hlexeme.isPlain
    simp only [token] at hkind
    rcases hkind with rfl | rfl <;> cases hplain
  | brace hbrace =>
    refine hresumes.cons fun hkind => ?_
    cases hbrace with
    -- Only this brace goes back to the text of a literal.
    | closeInterp =>
      cases hs with
      | interp _ => exact hmore.exists_parts last
    | _ => simp [token] at hkind
  | strOpen hcode => exact hresumes.cons fun _ => hmore.exists_parts last
  | strClose _ =>
    rw [List.append_assoc]
    exact resumes_textToken_append _ p (hresumes.cons (by simp [token]))
  | interpOpen _ _ =>
    rw [List.append_assoc]
    exact resumes_textToken_append _ p (hresumes.cons (by simp [token]))

theorem linesFrom_resumes {n : Nat} {b : Bool} {source : List Char} {lines : List (List Char)}
    {tokens : List Token} (hsource : SplitsInto source lines) (h : linesFrom n b lines = .ok tokens)
    {last : Token} (hlast : last.kind = .eof) : Resumes (tokens ++ [last]) := by
  -- What the tokens complete is needed at each quote, so both are proved together.
  have hboth : Completes n [] tokens ∧ Resumes (tokens ++ [last]) := by
    refine linesFrom_induction
      (P := fun p s _ tokens => Completes p.line s.modes tokens ∧ Resumes (tokens ++ [last]))
      ?_ ?_ ?_ hsource h
    · intro p b
      refine ⟨⟨[], .nil⟩, Resumes.cons ?_ (by simp [hlast])⟩
      intro before t rest hsplit
      simp at hsplit
    · intro p b ending source tokens _ h
      exact h
    · rintro p s taken rest tail tokens s' more hs - - hreads ⟨hcompletes, hresumes⟩
      rw [List.append_assoc]
      exact ⟨hreads.completes hcompletes, hreads.resumes hs hcompletes hresumes⟩
  exact hboth.2

end Scan

/-! ## 4. Parsing what was scanned -/

/-- No parse of a scanned source misses the end of a string literal, whatever its fuel.  Wherever an
opening quote or the closing brace of an embedded expression has been consumed, text, an embedded
expression or the closing quote of that literal is next, and the parser of its parts stops right
behind its closing quote if it succeeds. -/
theorem parser_keeps_to_literals {source : String} {tokens : List Token}
    (h : Token.scan source = .ok tokens) :
    (∀ e, Program.parse tokens = .error e → e.fault.wantsEndOfString = false) ∧
    (∀ fuel e, Stmt.parseMany fuel (fun _ => false) (.ofTokens tokens) = .error e →
      e.fault.wantsEndOfString = false) ∧
    ∀ before t rest, tokens = before ++ t :: rest → t.kind = .strOpen ∨ t.kind = .interpClose →
      (Cursor.mk (some t) rest).peek.kind.continuesString = true ∧
      ∃ parts right more, rest = parts ++ right :: more ∧ Parts parts ∧ right.kind = .strClose ∧
        ∀ fuel, (Expr.stringParts fuel).Meets ⟨some t, rest⟩ (fun _ d => d.rest = more)
          (fun e => e.fault.wantsEndOfString = false) := by
  obtain ⟨body, hbody, rfl⟩ := Scan.scan_eq_ok h
  have hsource := Scan.splitsInto_lines source.toList
  obtain ⟨outer, hitems⟩ := Scan.linesFrom_completes hsource hbody
  let last : Token := ⟨.eof, "", Scan.endPosition (Text.lines source.toList)⟩
  let D := nestedLiterals last rfl
  have hstart : D.Code D.top (.ofTokens (body ++ [last])) :=
    ⟨⟨last, [], rfl, .inr rfl⟩, body, outer, hitems, rfl⟩
  have hparse : ∀ fuel e,
      Stmt.parseMany fuel (fun _ => false) (.ofTokens (body ++ [last])) = .error e →
      e.fault.wantsEndOfString = false :=
    fun fuel _ he => ((D.stmtKept fuel).parseMany _ _ hstart).of_error he
  refine ⟨fun e => hparse _ e, hparse, fun before t rest hsplit ht => ?_⟩
  obtain ⟨parts, right, more, rfl, hparts, hright⟩ :=
    Scan.linesFrom_resumes hsource hbody rfl before t rest hsplit ht
  have hliteral : Cursor.InLiteralBefore more ⟨some t, parts ++ right :: more⟩ :=
    ⟨parts, right, hparts, hright, rfl⟩
  exact ⟨hliteral.continuesString, parts, right, more, rfl, hparts, hright,
    fun fuel => (D.exprKept fuel).stringParts hliteral⟩

/-- Behind the closing brace of the outer embedded expression, the rest of the outer literal is
next. -/
theorem nestedSource_keeps_to_literals :
    Token.scan Scan.nestedSource = .ok Scan.nestedTokens ∧
    (∀ e, Program.parse Scan.nestedTokens = .error e → e.fault.wantsEndOfString = false) ∧
    ∃ parts right more, Scan.nestedTokens.drop 11 = parts ++ right :: more ∧ Parts parts ∧
      right.kind = .strClose ∧
      ∀ fuel, (Expr.stringParts fuel).Meets ⟨Scan.nestedTokens[10]?, Scan.nestedTokens.drop 11⟩
        (fun _ d => d.rest = more) (fun e => e.fault.wantsEndOfString = false) := by
  obtain ⟨hparse, -, hliteral⟩ := parser_keeps_to_literals Scan.scan_nestedSource
  obtain ⟨-, hrest⟩ := hliteral (Scan.nestedTokens.take 10) (Scan.token .interpClose ['}'] ⟨2, 16⟩)
    (Scan.nestedTokens.drop 11) rfl (.inr rfl)
  exact ⟨Scan.scan_nestedSource, hparse, hrest⟩

end Scriptlet
