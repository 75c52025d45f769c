import Scriptlet.Proofs.Lexemes

/-!
# The steps of the scanner as a relation

`Reads p s taken rest tokens s'` says that a step at `p` in the state `s`, before the characters
`taken ++ rest`, takes `taken`, gives `tokens` and leaves the state `s'`.  The relation has one rule
for each thing that a step can do, so that a property of tokens is proved by cases on these rules
and never by unfolding the scanner.

`linesFrom_induction` is the one induction over a whole source: it follows the steps within a line
and passes from line to line, from the end of the source to its beginning.

The rules restate the lexer of §4.1 of the specification: comments, numbers, words, strings with
embedded expressions, and symbols.
-/

namespace Scriptlet.Scan

/-! ## 1. Steps

The relation is shown to hold of every step first, and then to hold of nothing else. -/

/-- Whether the next character is read as code and not as text. -/
def InCode : List Mode → Prop
  | .text _ :: _ => False
  | _ => True

/-- What a brace is in code, and how it changes what surrounds the next character. -/
inductive Brace : Char → TokenKind → List Mode → List Mode → Prop where
  | openOutside : Brace '{' (.symbol .lbrace) [] []
  | openInside {depth : Nat} {outer : List Mode} :
      Brace '{' (.symbol .lbrace) (.interp depth :: outer) (.interp (depth + 1) :: outer)
  | closeOutside : Brace '}' (.symbol .rbrace) [] []
  | closeInside {depth : Nat} {outer : List Mode} :
      Brace '}' (.symbol .rbrace) (.interp (depth + 1) :: outer) (.interp depth :: outer)
  | closeInterp {outer : List Mode} : Brace '}' .interpClose (.interp 0 :: outer) outer

/-- A step at `p` before the characters `taken ++ rest`, of which it takes `taken`. -/
inductive Reads (p : Position) : State → (taken rest : List Char) → List Token → State → Prop where
  | commentEnd {modes : List Mode} {body rest : List Char} :
      Unclosed (body ++ ['*']) → Reads p ⟨modes, true⟩ (body ++ ['*', '/']) rest [] ⟨modes, false⟩
  | commentLine {modes : List Mode} {cs : List Char} :
      cs ≠ [] → Unclosed cs → Reads p ⟨modes, true⟩ cs [] [] ⟨modes, true⟩
  | blank {modes : List Mode} {c : Char} {rest : List Char} :
      InCode modes → Text.isBlank c = true → Reads p ⟨modes, false⟩ [c] rest [] ⟨modes, false⟩
  | lineComment {modes : List Mode} {body : List Char} :
      InCode modes → Reads p ⟨modes, false⟩ ('/' :: '/' :: body) [] [] ⟨modes, false⟩
  | commentStart {modes : List Mode} {rest : List Char} :
      InCode modes → Reads p ⟨modes, false⟩ ['/', '*'] rest [] ⟨modes, true⟩
  | lexeme {modes : List Mode} {kind : TokenKind} {w rest : List Char} :
      InCode modes → Lexeme kind w rest →
      Reads p ⟨modes, false⟩ w rest [token kind w p] ⟨modes, false⟩
  | brace {modes modes' : List Mode} {c : Char} {kind : TokenKind} {rest : List Char} :
      Brace c kind modes modes' → Reads p ⟨modes, false⟩ [c] rest [token kind [c] p] ⟨modes', false⟩
  | strOpen {modes : List Mode} {rest : List Char} :
      InCode modes →
      Reads p ⟨modes, false⟩ ['"'] rest [token .strOpen ['"'] p] ⟨.text p.column :: modes, false⟩
  | strClose {opened : Nat} {outer : List Mode} {text w rest : List Char} :
      Written text w →
      Reads p ⟨.text opened :: outer, false⟩ (w ++ ['"']) rest
        (textToken text p ++ [token .strClose ['"'] (p.right w.length)]) ⟨outer, false⟩
  | interpOpen {opened : Nat} {outer : List Mode} {text w rest : List Char} :
      Written text w → rest.head? ≠ some '{' →
      Reads p ⟨.text opened :: outer, false⟩ (w ++ ['{']) rest
        (textToken text p ++ [token .interpOpen ['{'] (p.right w.length)])
        ⟨.interp 0 :: .text opened :: outer, false⟩

/-- What a successful step did: it took its first character and `more` further ones. -/
def Step.Took (st : Step) (p : Position) (s : State) (cs : List Char) : Prop :=
  ∃ taken rest, cs = taken ++ rest ∧ taken.length = st.more + 1 ∧
    Reads p s taken rest st.tokens st.state

theorem took_of_textStep {p : Position} {opened : Nat} {outer : List Mode} {c : Char}
    {rest : List Char} {st : Step} (h : textStep p opened outer c rest = .ok st) :
    st.Took p ⟨.text opened :: outer, false⟩ (c :: rest) := by
  obtain ⟨w, tail, hcs, hwidth, hw, hstop⟩ := describes_textRun (c :: rest)
  unfold textStep at h
  simp only [hwidth] at h
  generalize (textRun (c :: rest)).stop = stop at h hstop
  cases hstop with
  | @quote after =>
    obtain rfl := Except.ok.inj h
    exact ⟨w ++ ['"'], after, by simp [hcs], by simp, .strClose hw⟩
  | @brace after hafter =>
    obtain rfl := Except.ok.inj h
    exact ⟨w ++ ['{'], after, by simp [hcs], by simp, .interpOpen hw hafter⟩
  | badEscape _ => cases h
  | endOfLine => cases h
  | backslash => cases h

theorem symbolAt?_eq_some {cs : List Char} {s : Symbol} (h : symbolAt? cs = some s) :
    ∃ rest, cs = s.spelling.toList ++ rest := by
  have hfound := List.find?_some h
  obtain ⟨rest, hrest⟩ := List.isPrefixOf_iff_prefix.1 hfound
  exact ⟨rest, hrest.symm⟩

/-- The tests of a step are made in a fixed order; each of them leads to one rule. -/
theorem took_of_codeStep {p : Position} {modes : List Mode} {c : Char}
    {rest : List Char} {st : Step} (hcode : InCode modes) (h : codeStep p modes c rest = .ok st) :
    st.Took p ⟨modes, false⟩ (c :: rest) := by
  unfold codeStep at h
  by_cases hblank : Text.isBlank c = true
  · rw [if_pos hblank] at h
    obtain rfl := Except.ok.inj h
    exact ⟨[c], rest, rfl, rfl, .blank hcode hblank⟩
  rw [if_neg hblank] at h
  by_cases hslash : c = '/' ∧ rest.head? = some '/'
  · rw [if_pos hslash] at h
    obtain ⟨rfl, hhead⟩ := hslash
    obtain ⟨body, rfl⟩ := List.head?_eq_some_iff.1 hhead
    obtain rfl := Except.ok.inj h
    exact ⟨'/' :: '/' :: body, [], by simp, rfl, .lineComment hcode⟩
  rw [if_neg hslash] at h
  by_cases hstar : c = '/' ∧ rest.head? = some '*'
  · rw [if_pos hstar] at h
    obtain ⟨rfl, hhead⟩ := hstar
    obtain ⟨body, rfl⟩ := List.head?_eq_some_iff.1 hhead
    obtain rfl := Except.ok.inj h
    exact ⟨['/', '*'], body, rfl, rfl, .commentStart hcode⟩
  rw [if_neg hstar] at h
  by_cases hquote : c = '"'
  · rw [if_pos hquote] at h
    obtain rfl := hquote
    obtain rfl := Except.ok.inj h
    exact ⟨['"'], rest, rfl, rfl, .strOpen hcode⟩
  rw [if_neg hquote] at h
  by_cases hdigit : c.isDigit = true
  · rw [if_pos hdigit] at h
    obtain ⟨cs, hcs⟩ := numberLexeme_cons hdigit rest
    obtain ⟨after, hafter⟩ := numberLexeme_prefix (c :: rest)
    rw [hcs] at hafter h
    obtain rfl : cs ++ after = rest := by simpa using hafter
    obtain rfl := Except.ok.inj h
    exact ⟨c :: cs, after, rfl, rfl, .lexeme hcode (.number hdigit hcs)⟩
  rw [if_neg hdigit] at h
  by_cases hword : startsWord c = true
  · rw [if_pos hword] at h
    have hsplit := List.takeWhile_append_dropWhile (p := continuesWord) (l := rest)
    obtain rfl := Except.ok.inj h
    exact ⟨c :: rest.takeWhile continuesWord, rest.dropWhile continuesWord, by simp [hsplit], rfl,
      .lexeme hcode (.word hword (by rw [hsplit]))⟩
  rw [if_neg hword] at h
  by_cases hopen : c = '{'
  · rw [if_pos hopen] at h
    obtain rfl := hopen
    rcases modes with _ | ⟨⟨opened⟩ | ⟨depth⟩, outer⟩
    · obtain rfl := Except.ok.inj h
      exact ⟨['{'], rest, rfl, rfl, .brace .openOutside⟩
    · exact hcode.elim
    · obtain rfl := Except.ok.inj h
      exact ⟨['{'], rest, rfl, rfl, .brace .openInside⟩
  rw [if_neg hopen] at h
  by_cases hclose : c = '}'
  · rw [if_pos hclose] at h
    obtain rfl := hclose
    rcases modes with _ | ⟨⟨opened⟩ | ⟨_ | depth⟩, outer⟩
    · obtain rfl := Except.ok.inj h
      exact ⟨['}'], rest, rfl, rfl, .brace .closeOutside⟩
    · exact hcode.elim
    · obtain rfl := Except.ok.inj h
      exact ⟨['}'], rest, rfl, rfl, .brace .closeInterp⟩
    · obtain rfl := Except.ok.inj h
      exact ⟨['}'], rest, rfl, rfl, .brace .closeInside⟩
  rw [if_neg hclose] at h
  cases hsymbol : symbolAt? (c :: rest) with
  | none =>
    rw [hsymbol] at h
    cases h
  | some s =>
    rw [hsymbol] at h
    obtain ⟨after, hafter⟩ := symbolAt?_eq_some hsymbol
    obtain rfl := Except.ok.inj h
    refine ⟨s.spelling.toList, after, hafter, ?_,
      .lexeme hcode (.symbol ?_ ?_ (hafter ▸ hsymbol) ?_)⟩
    · have hpos := List.length_pos_iff.2 (spelling_ne_nil s)
      simp only [← String.length_toList]
      omega
    · rintro rfl
      exact hopen (List.cons.inj hafter).1
    · rintro rfl
      exact hclose (List.cons.inj hafter).1
    · rintro rfl
      obtain ⟨rfl, rfl⟩ := List.cons.inj hafter
      exact ⟨fun hhead => hslash ⟨rfl, hhead⟩, fun hhead => hstar ⟨rfl, hhead⟩⟩

theorem took_of_step {p : Position} {s : State} {c : Char} {rest : List Char} {st : Step}
    (h : step p s c rest = .ok st) : st.Took p s (c :: rest) := by
  obtain ⟨modes, comment⟩ := s
  unfold step at h
  cases comment with
  | true =>
    simp only [if_true] at h
    rcases commentEnd?_cases (c :: rest) with ⟨body, after, hcs, hend, hbody⟩ | ⟨hend, hopen⟩
    · rw [hend] at h
      obtain rfl := Except.ok.inj h
      exact ⟨body ++ ['*', '/'], after, by simp [hcs], by simp, .commentEnd hbody⟩
    · rw [hend] at h
      obtain rfl := Except.ok.inj h
      exact ⟨c :: rest, [], by simp, rfl, .commentLine (List.cons_ne_nil c rest) hopen⟩
  | false =>
    simp only [Bool.false_eq_true, if_false] at h
    split at h
    · exact took_of_textStep h
    · next hcode =>
      refine took_of_codeStep ?_ h
      rcases modes with _ | ⟨⟨opened⟩ | ⟨depth⟩, outer⟩
      · trivial
      · exact (hcode opened outer rfl).elim
      · trivial

/-- A digit begins neither a blank nor a comment nor a literal. -/
theorem codeStep_number {p : Position} {modes : List Mode} {c : Char} (h : c.isDigit = true)
    (rest : List Char) :
    codeStep p modes c rest =
      .ok ⟨[token (numberKind (numberLexeme (c :: rest))) (numberLexeme (c :: rest)) p],
        ⟨modes, false⟩, (numberLexeme (c :: rest)).length - 1⟩ := by
  have hblank : Text.isBlank c = false := isBlank_of_isDigit h
  have hslash : c ≠ '/' := by rintro rfl; exact absurd h (by decide)
  have hquote : c ≠ '"' := by rintro rfl; exact absurd h (by decide)
  unfold codeStep
  rw [if_neg (by simp [hblank]), if_neg (by simp [hslash]), if_neg (by simp [hslash]),
    if_neg hquote, if_pos h]

theorem codeStep_word {p : Position} {modes : List Mode} {c : Char} (h : startsWord c = true)
    (rest : List Char) :
    codeStep p modes c rest =
      .ok ⟨[token (.ofWord (String.ofList (c :: rest.takeWhile continuesWord)))
          (c :: rest.takeWhile continuesWord) p],
        ⟨modes, false⟩, (rest.takeWhile continuesWord).length⟩ := by
  have hblank : Text.isBlank c = false := isBlank_of_startsWord h
  have hslash : c ≠ '/' := by rintro rfl; exact absurd h (by decide)
  have hquote : c ≠ '"' := by rintro rfl; exact absurd h (by decide)
  have hdigit : c.isDigit = false := isDigit_of_startsWord h
  unfold codeStep
  rw [if_neg (by simp [hblank]), if_neg (by simp [hslash]), if_neg (by simp [hslash]),
    if_neg hquote, if_neg (by simp [hdigit]), if_pos h]
  rfl

/-- A symbol other than a brace begins with a character that begins no other lexeme. -/
theorem spelling_eq_cons {s : Symbol} {c : Char} {cs : List Char} (h : s.spelling.toList = c :: cs)
    (hopen : s ≠ .lbrace) (hclose : s ≠ .rbrace) :
    Text.isBlank c = false ∧ c ≠ '"' ∧ c.isDigit = false ∧ startsWord c = false ∧
      c ≠ '{' ∧ c ≠ '}' := by
  cases s with
  | lbrace => exact absurd rfl hopen
  | rbrace => exact absurd rfl hclose
  | _ => obtain ⟨rfl, -⟩ := List.cons.inj h; decide

theorem spelling_eq_slash_cons {s : Symbol} {cs : List Char} (h : s.spelling.toList = '/' :: cs) :
    s = .slash ∧ cs = [] ∨ cs = ['='] := by
  cases s with
  | slash => exact .inl ⟨rfl, (List.cons.inj h).2.symm⟩
  | slashAssign => exact .inr (List.cons.inj h).2.symm
  | _ => exact absurd (List.cons.inj h).1 (by decide)

theorem codeStep_symbol {p : Position} {modes : List Mode} {s : Symbol} {c : Char}
    {cs rest : List Char} (hs : s.spelling.toList = c :: cs) (hopen : s ≠ .lbrace)
    (hclose : s ≠ .rbrace) (hat : symbolAt? (c :: (cs ++ rest)) = some s)
    (hslash : s = .slash → rest.head? ≠ some '/' ∧ rest.head? ≠ some '*') :
    codeStep p modes c (cs ++ rest) =
      .ok ⟨[token (.symbol s) (c :: cs) p], ⟨modes, false⟩, cs.length⟩ := by
  obtain ⟨hblank, hquote, hdigit, hword, hopen', hclose'⟩ := spelling_eq_cons hs hopen hclose
  have hcomment : ∀ d, d = '/' ∨ d = '*' → ¬(c = '/' ∧ (cs ++ rest).head? = some d) := by
    rintro d hd ⟨rfl, hhead⟩
    rcases spelling_eq_slash_cons hs with ⟨rfl, rfl⟩ | rfl
    · rcases hd with rfl | rfl
      · exact (hslash rfl).1 hhead
      · exact (hslash rfl).2 hhead
    · rcases hd with rfl | rfl <;> simp at hhead
  have hlength : s.spelling.length - 1 = cs.length := by
    rw [← String.length_toList, hs]
    rfl
  simp only [codeStep, hblank, hcomment '/' (.inl rfl), hcomment '*' (.inr rfl), hquote, hdigit,
    hword, hopen', hclose', hat, hs, hlength, Bool.false_eq_true, if_false]

theorem codeStep_lexeme {p : Position} {modes : List Mode} {kind : TokenKind} {c : Char}
    {cs rest : List Char} (h : Lexeme kind (c :: cs) rest) :
    codeStep p modes c (cs ++ rest) =
      .ok ⟨[token kind (c :: cs) p], ⟨modes, false⟩, cs.length⟩ := by
  generalize hw : c :: cs = w at h
  cases h with
  | number hdigit hlexeme =>
    obtain ⟨rfl, rfl⟩ := List.cons.inj hw
    rw [codeStep_number hdigit, hlexeme]
    rfl
  | word hword hlexeme =>
    obtain ⟨rfl, rfl⟩ := List.cons.inj hw
    rw [codeStep_word hword, hlexeme]
  | symbol hopen hclose hat hslash =>
    rw [← hw] at hat ⊢
    exact codeStep_symbol hw.symm hopen hclose hat hslash

theorem codeStep_brace {p : Position} {modes modes' : List Mode} {c : Char} {kind : TokenKind}
    (h : Brace c kind modes modes') (rest : List Char) :
    codeStep p modes c rest = .ok ⟨[token kind [c] p], ⟨modes', false⟩, 0⟩ := by
  cases h <;> rfl

/-- A comment ends at its first end and not later. -/
theorem commentEnd?_append {body : List Char} (h : Unclosed (body ++ ['*'])) (rest : List Char) :
    commentEnd? (body ++ '*' :: '/' :: rest) = some (body.length + 2) := by
  induction body with
  | nil => rfl
  | cons c body ih =>
    obtain ⟨hfirst, hbody⟩ := unclosed_cons.1 h
    have hopen : ∀ after, c = '*' → body ++ '*' :: '/' :: rest = '/' :: after → False := by
      intro after hc heq
      refine hfirst hc ?_
      cases body <;> simp_all
    rw [List.cons_append, commentEnd?.eq_3 _ _ hopen, ih hbody]
    rfl

theorem commentEnd?_of_unclosed {cs : List Char} (h : Unclosed cs) : commentEnd? cs = none := by
  rcases commentEnd?_cases cs with ⟨body, rest, rfl, -, -⟩ | ⟨hnone, -⟩
  · exact absurd ⟨body, rest, by simp⟩ h
  · exact hnone

theorem step_code {p : Position} {modes : List Mode} (hcode : InCode modes) (c : Char)
    (rest : List Char) :
    step p ⟨modes, false⟩ c rest = codeStep p modes c rest := by
  rcases modes with _ | ⟨⟨opened⟩ | ⟨depth⟩, outer⟩
  · rfl
  · exact hcode.elim
  · rfl

theorem Brace.inCode {modes modes' : List Mode} {c : Char} {kind : TokenKind}
    (h : Brace c kind modes modes') :
    InCode modes := by
  cases h <;> trivial

/-- A brace ends an embedded expression, or code goes on behind it. -/
theorem Brace.cases_after {modes modes' : List Mode} {c : Char} {kind : TokenKind}
    (h : Brace c kind modes modes') :
    kind = .interpClose ∨ kind.isPlain = true ∧ InCode modes' := by
  cases h with
  | closeInterp => exact .inl rfl
  | _ => exact .inr ⟨rfl, trivial⟩

theorem exists_cons_append_mark (w : List Char) (mark : Char) (rest : List Char) :
    ∃ c cs, w ++ [mark] = c :: cs ∧ cs.length = w.length ∧
      c :: (cs ++ rest) = w ++ mark :: rest := by
  cases w with
  | nil => exact ⟨mark, [], rfl, rfl, rfl⟩
  | cons c w => exact ⟨c, w ++ [mark], rfl, by simp, by simp⟩

/-- The relation describes the steps exactly: what it allows is what the scanner does. -/
theorem step_of_reads {p : Position} {s s' : State} {taken rest : List Char} {tokens : List Token}
    (h : Reads p s taken rest tokens s') :
    ∃ c cs, taken = c :: cs ∧ step p s c (cs ++ rest) = .ok ⟨tokens, s', cs.length⟩ := by
  cases h with
  | @commentEnd modes body _ hbody =>
    have hend := commentEnd?_append hbody rest
    obtain ⟨c, cs, hcs⟩ := List.exists_cons_of_ne_nil (l := body ++ ['*', '/']) (by simp)
    have hlength := congrArg List.length hcs
    simp only [List.length_append, List.length_cons, List.length_nil] at hlength
    have hsame : body ++ '*' :: '/' :: rest = c :: (cs ++ rest) := by
      simp [← List.cons_append, ← hcs]
    rw [hsame] at hend
    refine ⟨c, cs, hcs, ?_⟩
    simp only [step, hend, if_true]
    have hmore : body.length + 2 - 1 = cs.length := by omega
    rw [hmore]
  | commentLine hne hopen =>
    obtain ⟨c, cs, rfl⟩ := List.exists_cons_of_ne_nil hne
    exact ⟨c, cs, rfl, by simp [step, commentEnd?_of_unclosed hopen]⟩
  | blank hcode hblank => exact ⟨_, [], rfl, (step_code hcode _ _).trans (if_pos hblank)⟩
  | lineComment hcode => exact ⟨_, _, rfl, by rw [step_code hcode, List.append_nil]; rfl⟩
  | commentStart hcode => exact ⟨_, ['*'], rfl, (step_code hcode _ _).trans rfl⟩
  | lexeme hcode hlexeme =>
    obtain ⟨c, cs, rfl⟩ := List.exists_cons_of_ne_nil hlexeme.ne_nil
    exact ⟨c, cs, rfl, (step_code hcode _ _).trans (codeStep_lexeme hlexeme)⟩
  | brace hbrace =>
    exact ⟨_, [], rfl, (step_code hbrace.inCode _ _).trans (codeStep_brace hbrace rest)⟩
  | strOpen hcode => exact ⟨_, [], rfl, (step_code hcode _ _).trans rfl⟩
  | @strClose opened outer text w _ hw =>
    obtain ⟨c, cs, hcs, hlength, happend⟩ := exists_cons_append_mark w '"' rest
    refine ⟨c, cs, hcs, ?_⟩
    simp only [step, Bool.false_eq_true, if_false, textStep, happend,
      textRun_append hw .quote, hlength]
  | @interpOpen opened outer text w _ hw hrest =>
    obtain ⟨c, cs, hcs, hlength, happend⟩ := exists_cons_append_mark w '{' rest
    refine ⟨c, cs, hcs, ?_⟩
    simp only [step, Bool.false_eq_true, if_false, textStep, happend,
      textRun_append hw (.brace hrest), hlength]

/-! ## 2. Lines

Literals end with their line, so at the end of a line nothing surrounds the next character. -/

/-- What surrounds the next character alternates between code and text, from code outwards to
code. -/
inductive Nested : List Mode → Prop where
  | nil : Nested []
  | text {opened : Nat} {modes : List Mode} :
      InCode modes → Nested modes → Nested (.text opened :: modes)
  | interp {depth opened : Nat} {outer : List Mode} :
      Nested (.text opened :: outer) → Nested (.interp depth :: .text opened :: outer)

/-- Where no literal is open, nothing is embedded either. -/
theorem Nested.eq_nil {modes : List Mode} (h : Nested modes) (hclosed : openString? modes = none) :
    modes = [] := by
  cases h with
  | nil => rfl
  | text _ _ => simp [openString?] at hclosed
  | interp _ => simp [openString?] at hclosed

theorem Nested.brace {modes modes' : List Mode} {c : Char} {kind : TokenKind} (h : Nested modes)
    (hbrace : Brace c kind modes modes') : Nested modes' := by
  cases hbrace with
  | openOutside => exact h
  | openInside => cases h with | interp h => exact .interp h
  | closeOutside => exact h
  | closeInside => cases h with | interp h => exact .interp h
  | closeInterp => cases h with | interp h => exact h

/-- A literal is opened in code, and an expression inside of a literal. -/
theorem Reads.nested {p : Position} {s s' : State} {taken rest : List Char} {tokens : List Token}
    (h : Reads p s taken rest tokens s') (hs : Nested s.modes) : Nested s'.modes := by
  cases h with
  | commentEnd _ | commentLine _ _ | blank _ _ | lineComment _ | commentStart _ | lexeme _ _ =>
    exact hs
  | brace hbrace => exact hs.brace hbrace
  | strOpen hcode => exact .text hcode hs
  | strClose _ => cases hs with | text _ hs => exact hs
  | interpOpen _ _ => exact .interp hs

theorem Reads.taken_ne_nil {p : Position} {s s' : State} {taken rest : List Char}
    {tokens : List Token} (h : Reads p s taken rest tokens s') : taken ≠ [] := by
  obtain ⟨c, cs, rfl, -⟩ := step_of_reads h
  exact List.cons_ne_nil c cs

/-- A line goes on after a step with what the step left over. -/
theorem line_of_reads {p : Position} {s s' : State} {taken rest : List Char} {tokens : List Token}
    (h : Reads p s taken rest tokens s') :
    line p s (taken ++ rest) = do
      let (more, comment) ← line (p.right taken.length) s' rest
      return (tokens ++ more, comment) := by
  obtain ⟨c, cs, rfl, hstep⟩ := step_of_reads h
  rw [List.cons_append, line]
  simp [hstep, bind, Except.bind]

theorem Reads.exists_rest {p : Position} {s s' : State} {taken rest : List Char}
    {tokens all : List Token} {b : Bool} (h : Reads p s taken rest tokens s')
    (hline : line p s (taken ++ rest) = .ok (all, b)) :
    ∃ more, line (p.right taken.length) s' rest = .ok (more, b) ∧ all = tokens ++ more := by
  rw [line_of_reads h] at hline
  cases hrest : line (p.right taken.length) s' rest with
  | error e =>
    rw [hrest] at hline
    cases hline
  | ok result =>
    rw [hrest] at hline
    obtain ⟨rfl, rfl⟩ := Prod.mk.inj (Except.ok.inj hline)
    exact ⟨result.1, rfl, rfl⟩

/-- A line that is scanned is used up, or its beginning is read by a step. -/
theorem line_cases {p : Position} {s : State} {cs : List Char} {tokens : List Token} {b : Bool}
    (h : line p s cs = .ok (tokens, b)) :
    (cs = [] ∧ tokens = [] ∧ s.comment = b ∧ openString? s.modes = none) ∨
    ∃ taken rest now s' more, cs = taken ++ rest ∧ Reads p s taken rest now s' ∧
      line (p.right taken.length) s' rest = .ok (more, b) ∧ tokens = now ++ more := by
  cases cs with
  | nil =>
    rw [line] at h
    split at h
    · cases h
    · next hclosed =>
      obtain ⟨rfl, rfl⟩ := Prod.mk.inj (Except.ok.inj h)
      exact .inl ⟨rfl, rfl, rfl, hclosed⟩
  | cons c cs =>
    cases hstep : step p s c cs with
    | error e =>
      rw [line, hstep] at h
      cases h
    | ok st =>
      obtain ⟨taken, rest, hcs, -, hreads⟩ := took_of_step hstep
      obtain ⟨more, hmore, htokens⟩ := hreads.exists_rest (hcs ▸ h)
      exact .inr ⟨taken, rest, st.tokens, st.state, more, hcs, hreads, hmore, htokens⟩

/-- Reads a line backwards: what holds behind its last character, and goes back over every step,
holds in front of its first one. -/
theorem line_induction {P : Position → State → List Char → List Token → Prop} {n : Nat} {b : Bool}
    {tail : List Token} (finish : ∀ k, P ⟨n, k⟩ ⟨[], b⟩ [] tail)
    (step : ∀ p s taken rest tokens s' more, Nested s.modes → Reads p s taken rest tokens s' →
      P (p.right taken.length) s' rest more → P p s (taken ++ rest) (tokens ++ more))
    {k : Nat} {s : State} {cs : List Char} {tokens : List Token} (hs : Nested s.modes)
    (h : line ⟨n, k⟩ s cs = .ok (tokens, b)) : P ⟨n, k⟩ s cs (tokens ++ tail) := by
  -- Every step takes a character, so the rest of a line is shorter.
  induction hlength : cs.length using Nat.strongRecOn generalizing k s cs tokens with
  | ind length ih =>
    rcases line_cases h with
      ⟨rfl, rfl, rfl, hclosed⟩ | ⟨taken, rest, now, s', more, rfl, hreads, hmore, rfl⟩
    · obtain ⟨modes, comment⟩ := s
      obtain rfl := hs.eq_nil hclosed
      exact finish k
    · have hshorter : rest.length < length := by
        have := List.length_pos_iff.2 hreads.taken_ne_nil
        rw [← hlength, List.length_append]
        omega
      rw [List.append_assoc]
      exact step _ _ _ _ _ _ _ hs hreads (ih rest.length hshorter (hreads.nested hs) hmore rfl)

/-! ## 3. Sources

Lines end in a line feed, with or without a carriage return in front of it. -/

def LineEnding (ending : List Char) : Prop := ending = ['\n'] ∨ ending = ['\r', '\n']

def EndsLine (cs : List Char) : Prop :=
  cs = [] ∨ ∃ ending rest, LineEnding ending ∧ cs = ending ++ rest

/-- A text and the lines that it is split into. -/
inductive SplitsInto : List Char → List (List Char) → Prop where
  | nil : SplitsInto [] []
  | last {cs : List Char} : cs ≠ [] → '\n' ∉ cs → SplitsInto cs [cs]
  | line {cs ending rest : List Char} {lines : List (List Char)} :
      '\n' ∉ cs → LineEnding ending → SplitsInto rest lines →
      SplitsInto (cs ++ (ending ++ rest)) (cs :: lines)

/-- A character other than a line feed belongs to the first line. -/
theorem SplitsInto.cons {c : Char} {cs line : List Char} {lines : List (List Char)} (hc : c ≠ '\n')
    (h : SplitsInto cs (line :: lines)) : SplitsInto (c :: cs) ((c :: line) :: lines) := by
  cases h with
  | last _ hline =>
    refine .last (List.cons_ne_nil c _) ?_
    simp [hline, hc.symm]
  | line hline hending hrest =>
    rw [← List.cons_append]
    refine .line ?_ hending hrest
    simp [hline, hc.symm]

theorem splitsInto_lines (cs : List Char) : SplitsInto cs (Text.lines cs) := by
  fun_induction Text.lines cs with
  | case1 => exact .nil
  | case2 rest ih => exact .line List.not_mem_nil (.inl rfl) ih
  | case3 rest ih => exact .line List.not_mem_nil (.inr rfl) ih
  | case4 c rest hc _ hlines ih =>
    rw [hlines] at ih
    cases ih
    exact .last (List.cons_ne_nil c _) (by simpa [eq_comm] using hc)
  | case5 c rest hc _ line more hlines ih =>
    rw [hlines] at ih
    exact ih.cons hc

/-- The first line is scanned on its own, but for an open comment. -/
theorem linesFrom_cons {n : Nat} {b : Bool} {cs : List Char} {lines : List (List Char)}
    {tokens : List Token} (h : linesFrom n b (cs :: lines) = .ok tokens) :
    ∃ now b' more, line ⟨n, 1⟩ ⟨[], b⟩ cs = .ok (now, b') ∧ linesFrom (n + 1) b' lines = .ok more ∧
      tokens = now ++ more := by
  rw [linesFrom] at h
  cases hline : line ⟨n, 1⟩ ⟨[], b⟩ cs with
  | error e =>
    rw [hline] at h
    cases h
  | ok result =>
    rw [hline] at h
    cases hlines : linesFrom (n + 1) result.2 lines with
    | error e => simp [bind, Except.bind, hlines] at h
    | ok more =>
      refine ⟨result.1, result.2, more, rfl, hlines, ?_⟩
      simpa [bind, Except.bind, hlines, pure, Except.pure, eq_comm] using h

/-- Reads a source backwards: what holds behind its last character, and goes back over every end of
a line and every step, holds at its beginning.  `rest` is what a step leaves of its line, and `tail`
is the source behind that line. -/
theorem linesFrom_induction {P : Position → State → List Char → List Token → Prop}
    (finish : ∀ p b, P p ⟨[], b⟩ [] [])
    (newline : ∀ p b ending source tokens, LineEnding ending →
      P ⟨p.line + 1, 1⟩ ⟨[], b⟩ source tokens → P p ⟨[], b⟩ (ending ++ source) tokens)
    (step : ∀ p s taken rest tail tokens s' more, Nested s.modes → '\n' ∉ taken → EndsLine tail →
      Reads p s taken rest tokens s' → P (p.right taken.length) s' (rest ++ tail) more →
      P p s (taken ++ (rest ++ tail)) (tokens ++ more))
    {n : Nat} {b : Bool} {source : List Char} {lines : List (List Char)} {tokens : List Token}
    (hsource : SplitsInto source lines) (h : linesFrom n b lines = .ok tokens) :
    P ⟨n, 1⟩ ⟨[], b⟩ source tokens := by
  have hline : ∀ {n b b' cs tail now more}, '\n' ∉ cs → EndsLine tail →
      line ⟨n, 1⟩ ⟨[], b⟩ cs = .ok (now, b') → (∀ k, P ⟨n, k⟩ ⟨[], b'⟩ tail more) →
      P ⟨n, 1⟩ ⟨[], b⟩ (cs ++ tail) (now ++ more) := by
    intro n b b' cs tail now more hcs htail hnow hmore
    refine line_induction (P := fun p s cs tokens => '\n' ∉ cs → P p s (cs ++ tail) tokens)
      (fun k _ => hmore k) ?_ .nil hnow hcs
    intro p s taken rest tokens s' more hs hreads ih hcs
    obtain ⟨htaken, hrest⟩ := not_or.1 (mt List.mem_append.2 hcs)
    rw [List.append_assoc]
    exact step p s taken rest tail tokens s' more hs htaken htail hreads (ih hrest)
  induction hsource generalizing n b tokens with
  | nil =>
    obtain rfl := Except.ok.inj h
    exact finish _ b
  | last _ hcs =>
    obtain ⟨now, b', more, hnow, hmore, rfl⟩ := linesFrom_cons h
    obtain rfl := Except.ok.inj hmore
    simpa using hline hcs (.inl rfl) hnow fun k => finish ⟨n, k⟩ b'
  | line hcs hending _ ih =>
    obtain ⟨now, b', more, hnow, hmore, rfl⟩ := linesFrom_cons h
    exact hline hcs (.inr ⟨_, _, hending, rfl⟩) hnow fun k =>
      newline ⟨n, k⟩ b' _ _ _ hending (ih hmore)

/-- The tokens of a source are those of its lines and the mark of its end. -/
theorem scan_eq_ok {source : String} {tokens : List Token} (h : Token.scan source = .ok tokens) :
    ∃ body, linesFrom 1 false (Text.lines source.toList) = .ok body ∧
      tokens = body ++ [⟨.eof, "", endPosition (Text.lines source.toList)⟩] := by
  unfold Token.scan at h
  simp only at h
  cases hbody : linesFrom 1 false (Text.lines source.toList) with
  | error e =>
    rw [hbody] at h
    cases h
  | ok body =>
    rw [hbody] at h
    exact ⟨body, rfl, (Except.ok.inj h).symm⟩

/-! ## 4. A source with all that nests -/

/-- A block comment over the end of a line, a literal with another one and plain braces embedded in
it and with braces in its text, and a comment to the end of the line. -/
def nestedSource : String := "/* a\n*/ x+\"\x7b\x7b\x7b \x7b\"c\"\x7d\x7d\x7d\x7d\\t\" // d"

def nestedTokens : List Token :=
  [token (.ident "x") ['x'] ⟨2, 4⟩,
   token (.symbol .plus) ['+'] ⟨2, 5⟩,
   token .strOpen ['"'] ⟨2, 6⟩,
   token (.strText "\x7b") ['{'] ⟨2, 7⟩,
   token .interpOpen ['{'] ⟨2, 9⟩,
   token (.symbol .lbrace) ['{'] ⟨2, 11⟩,
   token .strOpen ['"'] ⟨2, 12⟩,
   token (.strText "c") ['c'] ⟨2, 13⟩,
   token .strClose ['"'] ⟨2, 14⟩,
   token (.symbol .rbrace) ['}'] ⟨2, 15⟩,
   token .interpClose ['}'] ⟨2, 16⟩,
   token (.strText "\x7d\t") ['}', '\t'] ⟨2, 17⟩,
   token .strClose ['"'] ⟨2, 21⟩,
   token .eof [] ⟨2, 27⟩]

theorem scan_nestedSource : Token.scan nestedSource = .ok nestedTokens := by
  with_unfolding_all rfl

end Scriptlet.Scan
