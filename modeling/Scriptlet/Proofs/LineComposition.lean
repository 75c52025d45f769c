import Scriptlet.Proofs.Tiling
import Scriptlet.Proofs.TokenRendering

/-!
# Scanning is compositional in lines

Nothing but an open block comment is passed on from one line to the next, so two sources with a line
feed between them are scanned like each one on its own, the second one further down.  Three facts
are behind this: what the scanner does in a line does not depend on the number of the line
(`line_down`), the lines of a list are scanned one after the other (`linesFrom_append`), and the
line feed ends the last line of the first source without a change to its tokens, even where it makes
a carriage return part of the ending (`Ended.linesFrom_eq`).

That lines are read one after the other with a flag for block comments is §4.1 of the specification.
-/

namespace Scriptlet

/-! ## 1. Further down

Scanning does not depend on where a line stands, but for the places of the tokens and of errors. -/

def Position.down (k : Nat) (p : Position) : Position := ⟨p.line + k, p.column⟩

def Token.down (k : Nat) (t : Token) : Token := { t with position := t.position.down k }

def SyntaxError.down (k : Nat) (e : SyntaxError) : SyntaxError :=
  { e with position := e.position.down k }

namespace Scan

/-- A result of the scanner for a place `k` lines further down; `f` moves what was read. -/
def moved {α : Type} (k : Nat) (f : α → α) : Except SyntaxError α → Except SyntaxError α
  | .ok a => .ok (f a)
  | .error e => .error (e.down k)

def Step.down (k : Nat) (st : Step) : Step := { st with tokens := st.tokens.map (Token.down k) }

theorem textToken_down (k : Nat) (text : List Char) (p : Position) :
    textToken text (p.down k) = (textToken text p).map (Token.down k) := by
  cases text <;> rfl

/-- In text, a step keeps the column of the opening quote and moves its tokens. -/
theorem textStep_down (k : Nat) (p : Position) (opened : Nat) (outer : List Mode) (c : Char)
    (rest : List Char) :
    textStep (p.down k) opened outer c rest =
      moved k (Step.down k) (textStep p opened outer c rest) := by
  unfold textStep
  simp only
  split
  · simp only [moved, Step.down, textToken_down, List.map_append]
    rfl
  · simp only [moved, Step.down, textToken_down, List.map_append]
    rfl
  · rfl
  · rfl

theorem ite_moved {α : Type} {k : Nat} {f : α → α} {test : Prop} [Decidable test]
    {x y x' y' : Except SyntaxError α} (hx : x = moved k f x') (hy : y = moved k f y') :
    (if test then x else y) = moved k f (if test then x' else y') := by
  split
  · exact hx
  · exact hy

/-- A step looks at characters and modes only, so the same case applies further down. -/
theorem codeStep_down (k : Nat) (p : Position) (modes : List Mode) (c : Char) (rest : List Char) :
    codeStep (p.down k) modes c rest = moved k (Step.down k) (codeStep p modes c rest) := by
  unfold codeStep
  simp only
  -- blanks, both comments, quotes, digits and words
  refine ite_moved rfl (ite_moved rfl (ite_moved rfl ?_))
  refine ite_moved rfl (ite_moved rfl (ite_moved rfl ?_))
  refine ite_moved ?_ (ite_moved ?_ ?_)
  · -- an opening brace
    split <;> rfl
  · -- a closing brace
    split <;> rfl
  · -- any other symbol
    split <;> rfl

theorem step_down (k : Nat) (p : Position) (s : State) (c : Char) (rest : List Char) :
    step (p.down k) s c rest = moved k (Step.down k) (step p s c rest) := by
  unfold step
  split
  · split <;> rfl
  · split
    · exact textStep_down k p _ _ c rest
    · exact codeStep_down k p _ c rest

/-- A line is scanned in the same way further down. -/
theorem line_down (k : Nat) (p : Position) (s : State) (cs : List Char) :
    line (p.down k) s cs = moved k (fun r => (r.1.map (Token.down k), r.2)) (line p s cs) := by
  induction hlength : cs.length using Nat.strongRecOn generalizing p s cs with
  | ind length ih =>
    cases cs with
    | nil =>
      rw [line, line]
      split <;> rfl
    | cons c rest =>
      rw [line, line, step_down]
      cases hstep : step p s c rest with
      | error e => rfl
      | ok st =>
        have hshorter : (rest.drop st.more).length < length := by
          rw [← hlength, List.length_drop, List.length_cons]
          omega
        have hrest := ih _ hshorter (p.right (st.more + 1)) st.state (rest.drop st.more) rfl
        have hright : (p.down k).right (st.more + 1) = (p.right (st.more + 1)).down k := rfl
        simp only [moved, Step.down, bind, Except.bind, hright, hrest]
        cases line (p.right (st.more + 1)) st.state (rest.drop st.more) with
        | error e => rfl
        | ok r => simp [pure, Except.pure]

/-- So are the lines of a list. -/
theorem linesFrom_down (k n : Nat) (b : Bool) (lines : List (List Char)) :
    linesFrom (n + k) b lines = moved k (List.map (Token.down k)) (linesFrom n b lines) := by
  induction lines generalizing n b with
  | nil => rfl
  | cons cs lines ih =>
    have hline := line_down k ⟨n, 1⟩ ⟨[], b⟩ cs
    rw [linesFrom, linesFrom]
    change (line (Position.down k ⟨n, 1⟩) ⟨[], b⟩ cs >>= _) = _
    rw [hline]
    cases line ⟨n, 1⟩ ⟨[], b⟩ cs with
    | error e => rfl
    | ok r =>
      have hmore : n + k + 1 = n + 1 + k := by omega
      simp only [moved, bind, Except.bind, hmore, ih]
      cases linesFrom (n + 1) r.2 lines with
      | error e => rfl
      | ok more => simp [pure, Except.pure]

/-! ## 2. Lines one after the other -/

/-- Whether a block comment is open behind these lines, the first of which has the number `n`. -/
def openAfter (n : Nat) (comment : Bool) : List (List Char) → Bool
  | [] => comment
  | cs :: more =>
    match line ⟨n, 1⟩ ⟨[], comment⟩ cs with
    | .ok (_, comment) => openAfter (n + 1) comment more
    | .error _ => false

theorem openAfter_cons {n : Nat} {b b' : Bool} {cs : List Char} {now : List Token}
    (h : line ⟨n, 1⟩ ⟨[], b⟩ cs = .ok (now, b')) (lines : List (List Char)) :
    openAfter n b (cs :: lines) = openAfter (n + 1) b' lines := by
  rw [openAfter, h]

/-- Lines that are scanned leave behind their tokens and whether a comment is open. -/
theorem linesFrom_append {n : Nat} {b : Bool} {first : List (List Char)} {tokens : List Token}
    (h : linesFrom n b first = .ok tokens) (second : List (List Char)) :
    linesFrom n b (first ++ second) =
      (linesFrom (n + first.length) (openAfter n b first) second).map (tokens ++ ·) := by
  induction first generalizing n b tokens with
  | nil =>
    obtain rfl := Except.ok.inj h
    cases hsecond : linesFrom n b second <;> simp [openAfter, hsecond, Except.map]
  | cons cs first ih =>
    obtain ⟨now, b', more, hnow, hmore, rfl⟩ := linesFrom_cons h
    have hlength : n + (cs :: first).length = n + 1 + first.length := by
      simp only [List.length_cons]
      omega
    rw [List.cons_append, linesFrom, hnow, openAfter_cons hnow, hlength]
    simp only [bind, Except.bind, ih hmore]
    cases linesFrom (n + 1 + first.length) (openAfter (n + 1) b' first) second <;>
      simp [Except.map, pure, Except.pure]

/-! ## 3. A carriage return at the end of a line

It is blank in code and no part of any lexeme, so the tokens of a line are the same without it. -/

theorem head?_ne_of_append {cs : List Char} {mark c : Char} (h : (cs ++ [mark]).head? ≠ some c) :
    cs.head? ≠ some c := by
  cases cs with
  | nil => simp
  | cons d cs => simpa using h

theorem Lexeme.without_return {kind : TokenKind} {w rest : List Char}
    (h : Lexeme kind w (rest ++ ['\r'])) :
    Lexeme kind w rest := by
  refine (lexeme_append_blank_iff ?_).1 h
  intro c hc
  cases hc
  decide

/-- A step that ends in front of the carriage return is the same step without it. -/
theorem Reads.without_return {p : Position} {s s' : State} {taken rest : List Char}
    {tokens : List Token} (h : Reads p s taken (rest ++ ['\r']) tokens s') :
    Reads p s taken rest tokens s' := by
  generalize hrest : rest ++ ['\r'] = rest' at h
  cases h with
  | commentEnd hbody => exact .commentEnd hbody
  | commentLine _ _ => simp at hrest
  | blank hcode hblank => exact .blank hcode hblank
  | lineComment _ => simp at hrest
  | commentStart hcode => exact .commentStart hcode
  | lexeme hcode hlexeme => exact .lexeme hcode (Lexeme.without_return (hrest ▸ hlexeme))
  | brace hbrace => exact .brace hbrace
  | strOpen hcode => exact .strOpen hcode
  | strClose hw => exact .strClose hw
  | interpOpen hw hbrace => exact .interpOpen hw (head?_ne_of_append (hrest ▸ hbrace))

/-- A step that takes a final carriage return is one over a comment or a blank, and without it there
is the same step or none. -/
theorem Reads.of_return {p : Position} {s s' : State} {w : List Char} {tokens : List Token}
    (h : Reads p s (w ++ ['\r']) [] tokens s') :
    tokens = [] ∧ s' = s ∧ (w = [] ∨ Reads p s w [] [] s) := by
  have hlast : ∀ cs mark, w ++ ['\r'] = cs ++ [mark] → mark = '\r' := fun cs mark heq => by
    have := congrArg List.getLast? heq
    simpa [eq_comm] using this
  generalize htaken : w ++ ['\r'] = taken at h
  cases h with
  | @commentEnd modes body _ _ =>
    exact absurd (hlast (body ++ ['*']) '/' (by simp [htaken])) (by decide)
  | commentLine _ hopen =>
    refine ⟨rfl, rfl, ?_⟩
    by_cases hw : w = []
    · exact .inl hw
    · refine .inr (.commentLine hw fun hclosed => hopen ?_)
      rw [← htaken]
      exact hclosed.trans (List.prefix_append w ['\r']).isInfix
  | blank _ _ => exact ⟨rfl, rfl, .inl (by cases w <;> simp_all)⟩
  | @lineComment modes body hcode =>
    refine ⟨rfl, rfl, .inr ?_⟩
    match w, htaken with
    | [_], htaken => simp at htaken
    | _ :: _ :: more, htaken =>
      obtain ⟨rfl, rfl, rfl⟩ : _ = '/' ∧ _ = '/' ∧ more ++ ['\r'] = body := by simpa using htaken
      exact .lineComment hcode
  | commentStart _ => exact absurd (hlast ['/'] '*' htaken) (by decide)
  | lexeme _ hlexeme =>
    have hblank := hlexeme.isBlank_eq_false '\r' (by simp [← htaken])
    exact absurd hblank (by decide)
  | brace hbrace =>
    obtain rfl := hlast [] _ htaken
    cases hbrace
  | strOpen _ => exact absurd (hlast [] '"' htaken) (by decide)
  | strClose _ => exact absurd (hlast _ '"' htaken) (by decide)
  | interpOpen _ _ => exact absurd (hlast _ '{' htaken) (by decide)

/-- A line without its final carriage return has the same tokens. -/
theorem line_without_return {p : Position} {s : State} {cs : List Char}
    {tokens : List Token} {b : Bool} (h : line p s (cs ++ ['\r']) = .ok (tokens, b)) :
    line p s cs = .ok (tokens, b) := by
  induction hlength : cs.length using Nat.strongRecOn generalizing p s cs tokens with
  | ind length ih =>
    rcases line_cases h with ⟨hnil, -⟩ | ⟨taken, rest, now, s', more, hcs, hreads, hmore, rfl⟩
    · simp at hnil
    -- The carriage return is taken by this step, or by a later one.
    rcases List.eq_nil_or_concat rest with rfl | ⟨rest, last, rfl⟩
    · rw [List.append_nil] at hcs
      obtain ⟨rfl, rfl, hw⟩ := (hcs ▸ hreads).of_return
      rcases line_cases hmore with ⟨-, rfl, rfl, hclosed⟩ | ⟨_, _, _, _, _, hnil, htaken, -⟩
      · have hend : ∀ q, line q s' [] = .ok ([], s'.comment) := fun q => by rw [line, hclosed]
        rcases hw with rfl | hw
        · exact hend p
        · simpa using hw.line_eq_ok (hend _)
      · exact absurd (List.append_eq_nil_iff.1 hnil.symm).1 htaken.taken_ne_nil
    · rw [List.concat_eq_append, ← List.append_assoc] at hcs
      obtain ⟨rfl, hlast⟩ := List.append_inj' hcs rfl
      obtain rfl : '\r' = last := by simpa using hlast
      rw [List.concat_eq_append] at hreads hmore
      have hshorter : rest.length < length := by
        have := List.length_pos_iff.2 hreads.taken_ne_nil
        rw [← hlength, List.length_append]
        omega
      exact hreads.without_return.line_eq_ok (ih _ hshorter hmore rfl)

/-! ## 4. A line feed behind a source -/

/-- How the lines of a text change when a line feed is put behind it: the last one is ended, without
its carriage return if it has one, and a text whose lines are all ended gets an empty one. -/
inductive Ended : (lines ended : List (List Char)) → Prop where
  | empty : Ended [] [[]]
  | last (cs : List Char) : Ended [cs] [cs]
  | lastReturn (cs : List Char) : Ended [cs ++ ['\r']] [cs]
  | cons (cs : List Char) {lines ended : List (List Char)} :
      Ended lines ended → Ended (cs :: lines) (cs :: ended)

/-- A character in front of the first line changes nothing at the end of the last one. -/
theorem Ended.cons_char (c : Char) {cs cs' : List Char} {lines ended : List (List Char)}
    (h : Ended (cs :: lines) (cs' :: ended)) :
    Ended ((c :: cs) :: lines) ((c :: cs') :: ended) := by
  generalize hlines : cs :: lines = ls at h
  cases h with
  | empty => cases hlines
  | last _ =>
    cases hlines
    exact .last _
  | lastReturn _ =>
    cases hlines
    exact .lastReturn (c :: cs')
  | cons _ h =>
    cases hlines
    exact .cons _ h

/-- A line feed between two texts ends the lines of the first one, and the lines of the second one
follow. -/
theorem ended_lines (cs ds : List Char) :
    ∃ ended, Ended (Text.lines cs) ended ∧ ended.length = cs.count '\n' + 1 ∧
      Text.lines (cs ++ '\n' :: ds) = ended ++ Text.lines ds := by
  fun_induction Text.lines cs with
  | case1 => exact ⟨[[]], .empty, rfl, rfl⟩
  | case2 rest ih =>
    obtain ⟨ended, hended, hlength, hlines⟩ := ih
    exact ⟨[] :: ended, .cons [] hended, by simp [hlength], by simp [Text.lines, hlines]⟩
  | case3 rest ih =>
    obtain ⟨ended, hended, hlength, hlines⟩ := ih
    exact ⟨[] :: ended, .cons [] hended, by simp [hlength], by simp [Text.lines, hlines]⟩
  | case4 c rest hc hpair hrest ih =>
    have hnil : SplitsInto rest [] := hrest ▸ splitsInto_lines rest
    cases hnil
    by_cases hreturn : c = '\r'
    · subst hreturn
      exact ⟨[[]], .lastReturn [], by decide, rfl⟩
    · refine ⟨[[c]], .last [c], by simp [List.count_cons_of_ne hc], ?_⟩
      rw [List.cons_append, Text.lines_cons hc fun h => absurd h hreturn]
      rfl
  | case5 c rest hc hpair line more hrest ih =>
    obtain ⟨ended, hended, hlength, hlines⟩ := ih
    obtain ⟨first, ended, rfl⟩ := List.exists_cons_of_length_eq_add_one hlength
    have hnext : c = '\r' → (rest ++ '\n' :: ds).head? ≠ some '\n' := by
      intro hreturn hhead
      cases rest with
      | nil => cases hrest
      | cons d rest =>
        obtain rfl : d = '\n' := by simpa using hhead
        exact hpair rest hreturn rfl
    rw [hrest] at hended
    refine ⟨(c :: first) :: ended, hended.cons_char c,
      by simpa [List.count_cons_of_ne hc] using hlength, ?_⟩
    rw [List.cons_append, Text.lines_cons hc hnext, hlines]
    rfl

/-- The line feed changes neither the tokens nor whether a block comment is open. -/
theorem Ended.linesFrom_eq {n : Nat} {b : Bool} {lines ended : List (List Char)}
    {tokens : List Token} (hended : Ended lines ended) (h : linesFrom n b lines = .ok tokens) :
    linesFrom n b ended = .ok tokens ∧ openAfter n b ended = openAfter n b lines := by
  induction hended generalizing n b tokens with
  | empty =>
    obtain rfl := Except.ok.inj h
    have hline : line ⟨n, 1⟩ ⟨[], b⟩ [] = .ok ([], b) := by
      rw [line]
      rfl
    exact ⟨by simp [linesFrom, hline, bind, Except.bind, pure, Except.pure],
      openAfter_cons hline []⟩
  | last cs => exact ⟨h, rfl⟩
  | lastReturn cs =>
    obtain ⟨now, b', more, hnow, hmore, rfl⟩ := linesFrom_cons h
    have hline := line_without_return hnow
    obtain rfl := Except.ok.inj hmore
    rw [openAfter_cons hline, openAfter_cons hnow]
    exact ⟨by simp [linesFrom, hline, bind, Except.bind, pure, Except.pure], rfl⟩
  | cons cs _ ih =>
    obtain ⟨now, b', more, hnow, hmore, rfl⟩ := linesFrom_cons h
    obtain ⟨htokens, hopen⟩ := ih hmore
    rw [openAfter_cons hnow, openAfter_cons hnow]
    exact ⟨by simp [linesFrom, hnow, htokens, bind, Except.bind, pure, Except.pure], hopen⟩

/-! ## 5. Two sources

A line feed between two sources separates them unless the first one ends inside of a comment. -/

theorem scan_eq (source : String) :
    Token.scan source = (linesFrom 1 false (Text.lines source.toList)).map
      (· ++ [⟨.eof, "", endPosition (Text.lines source.toList)⟩]) := by
  unfold Token.scan
  simp only
  cases linesFrom 1 false (Text.lines source.toList) <;> rfl

theorem kind_ne_eof_of_mem_textToken {text : List Char} {p : Position} {t : Token}
    (h : t ∈ textToken text p) :
    t.kind ≠ .eof := by
  cases text with
  | nil => cases h
  | cons c text =>
    obtain rfl := List.mem_singleton.1 h
    simp [token]

/-- No step gives the token for the end of the source. -/
theorem Reads.kind_ne_eof {p : Position} {s s' : State} {taken rest : List Char}
    {tokens : List Token} (h : Reads p s taken rest tokens s') : ∀ t ∈ tokens, t.kind ≠ .eof := by
  intro t ht
  cases h with
  | commentEnd _ | commentLine _ _ | blank _ _ | lineComment _ | commentStart _ => cases ht
  | lexeme _ hlexeme =>
    obtain rfl := List.mem_singleton.1 ht
    obtain ⟨hplain, -⟩ := hlexeme.isPlain
    intro heof
    simp only [token] at heof
    rw [heof] at hplain
    cases hplain
  | brace hbrace =>
    obtain rfl := List.mem_singleton.1 ht
    cases hbrace <;> simp [token]
  | strOpen _ =>
    obtain rfl := List.mem_singleton.1 ht
    simp [token]
  | strClose _ | interpOpen _ _ =>
    rcases List.mem_append.1 ht with ht | ht
    · exact kind_ne_eof_of_mem_textToken ht
    · obtain rfl := List.mem_singleton.1 ht
      simp [token]

theorem linesFrom_kind_ne_eof {n : Nat} {b : Bool} {source : List Char} {lines : List (List Char)}
    {tokens : List Token} (hsource : SplitsInto source lines)
    (h : linesFrom n b lines = .ok tokens) :
    ∀ t ∈ tokens, t.kind ≠ .eof := by
  refine linesFrom_induction (P := fun _ _ _ tokens => ∀ t ∈ tokens, t.kind ≠ .eof) ?_ ?_ ?_
    hsource h
  · intro p b t ht
    cases ht
  · intro p b ending source tokens _ h
    exact h
  · intro p s taken rest tail tokens s' more _ _ _ hreads hmore t ht
    exact (List.mem_append.1 ht).elim (hreads.kind_ne_eof t) (hmore t)

end Scan

def Token.endsInComment (source : String) : Bool :=
  Scan.openAfter 1 false (Text.lines source.toList)

def Token.proper (tokens : List Token) : List Token := tokens.filter (·.kind ≠ .eof)

theorem Token.proper_append_eof {body : List Token} (h : ∀ t ∈ body, t.kind ≠ .eof) (p : Position) :
    Token.proper (body ++ [⟨.eof, "", p⟩]) = body := by
  have hbody : body.filter (·.kind ≠ .eof) = body := List.filter_eq_self.2 fun t ht => by
    simpa using h t ht
  rw [Token.proper, List.filter_append, hbody]
  simp

/-- A source that does not end inside of a block comment, and another one behind it on new lines,
are scanned like each one on its own: the second one's tokens come after the first one's, or its
error is the error, as many lines further down as the first one's line feeds and the new one. -/
theorem scan_append_newline {first second : String} {tokens : List Token}
    (hfirst : Token.scan first = .ok tokens) (hclosed : Token.endsInComment first = false) :
    (∀ more, Token.scan second = .ok more →
      ∃ last, last.kind = .eof ∧ Token.scan (first ++ "\n" ++ second) =
        .ok (Token.proper tokens ++
          (Token.proper more).map (Token.down (first.toList.count '\n' + 1)) ++ [last])) ∧
    ∀ e, Token.scan second = .error e →
      Token.scan (first ++ "\n" ++ second) = .error (e.down (first.toList.count '\n' + 1)) := by
  obtain ⟨body, hbody, rfl⟩ := Scan.scan_eq_ok hfirst
  obtain ⟨ended, hended, hlength, hlines⟩ := Scan.ended_lines first.toList second.toList
  obtain ⟨hfirst', hopen⟩ := hended.linesFrom_eq hbody
  have hjoined : (first ++ "\n" ++ second).toList = first.toList ++ '\n' :: second.toList := by simp
  have hscan : Scan.linesFrom 1 false (Text.lines (first ++ "\n" ++ second).toList) =
      (Scan.moved (first.toList.count '\n' + 1)
        (List.map (Token.down (first.toList.count '\n' + 1)))
        (Scan.linesFrom 1 false (Text.lines second.toList))).map (body ++ ·) := by
    rw [hjoined, hlines, Scan.linesFrom_append hfirst', hopen, hlength, ← Scan.linesFrom_down]
    exact congrArg (fun b => (Scan.linesFrom _ b _).map _) hclosed
  have hproper := Token.proper_append_eof
    (Scan.linesFrom_kind_ne_eof (Scan.splitsInto_lines _) hbody)
  refine ⟨fun more hsecond => ?_, fun e hsecond => ?_⟩
  · obtain ⟨body₂, hbody₂, rfl⟩ := Scan.scan_eq_ok hsecond
    have hproper₂ := Token.proper_append_eof
      (Scan.linesFrom_kind_ne_eof (Scan.splitsInto_lines _) hbody₂)
    rw [hproper, hproper₂, Scan.scan_eq, hscan, hbody₂]
    exact ⟨_, rfl, rfl⟩
  · rw [Scan.scan_eq] at hsecond
    rw [Scan.scan_eq, hscan]
    cases hbody₂ : Scan.linesFrom 1 false (Text.lines second.toList) with
    | ok body₂ =>
      rw [hbody₂] at hsecond
      cases hsecond
    | error e₂ =>
      rw [hbody₂] at hsecond
      obtain rfl := Except.error.inj hsecond
      rfl

/-- The second source ends in a carriage return and a line feed, or has an error on its second
line. -/
theorem nestedSource_append_newline :
    Token.scan Scan.nestedSource = .ok Scan.nestedTokens ∧
    Token.endsInComment Scan.nestedSource = false ∧
    (∃ last, last.kind = .eof ∧ Token.scan (Scan.nestedSource ++ "\n" ++ "y\r\n") =
      .ok (Token.proper Scan.nestedTokens ++ [Scan.token (.ident "y") ['y'] ⟨3, 1⟩] ++ [last])) ∧
    Token.scan (Scan.nestedSource ++ "\n" ++ "y \r\n@") =
      .error ⟨.unexpectedCharacter '@', ⟨4, 1⟩⟩ := by
  have hclosed : Token.endsInComment Scan.nestedSource = false := by with_unfolding_all rfl
  have hscans : Token.scan "y\r\n" =
      .ok [Scan.token (.ident "y") ['y'] ⟨1, 1⟩, Scan.token .eof [] ⟨1, 2⟩] := by
    with_unfolding_all rfl
  have hfails : Token.scan "y \r\n@" = .error ⟨.unexpectedCharacter '@', ⟨2, 1⟩⟩ := by
    with_unfolding_all rfl
  exact ⟨Scan.scan_nestedSource, hclosed,
    (scan_append_newline Scan.scan_nestedSource hclosed).1 _ hscans,
    (scan_append_newline Scan.scan_nestedSource hclosed).2 _ hfails⟩

end Scriptlet
