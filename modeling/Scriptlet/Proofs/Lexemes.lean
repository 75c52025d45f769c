import Scriptlet.Proofs.LiteralGrammar
import Scriptlet.Token.Scan

/-!
# What the scanner reads

Lexemes, the text of string literals and comments as relations between characters and what they
stand for.  Each relation fits the function that reads its characters: `numberLexeme`, `textRun` and
`commentEnd?`.

The shapes of numbers, words and literals are those of §4.1 of the specification.
-/

namespace Scriptlet.Scan

/-! ## 1. Lexemes

A lexeme in front of the rest of its line.  Number, word and symbol exclude each other by their
first characters. -/

/-- The characters `lexeme` in front of `rest` are a number, a word or a symbol other than a brace,
and no more of `rest` belongs to it. -/
inductive Lexeme : TokenKind → (lexeme rest : List Char) → Prop where
  | number {c : Char} {cs rest : List Char} :
      c.isDigit = true → numberLexeme (c :: (cs ++ rest)) = c :: cs →
      Lexeme (numberKind (c :: cs)) (c :: cs) rest
  | word {c : Char} {cs rest : List Char} :
      startsWord c = true → (cs ++ rest).takeWhile continuesWord = cs →
      Lexeme (.ofWord (String.ofList (c :: cs))) (c :: cs) rest
  | symbol {s : Symbol} {rest : List Char} :
      s ≠ .lbrace → s ≠ .rbrace → symbolAt? (s.spelling.toList ++ rest) = some s →
      (s = .slash → rest.head? ≠ some '/' ∧ rest.head? ≠ some '*') →
      Lexeme (.symbol s) s.spelling.toList rest

/-- A number is taken from the beginning of the text. -/
theorem numberLexeme_prefix (cs : List Char) : numberLexeme cs <+: cs := by
  have hwhole := List.takeWhile_append_dropWhile (p := Char.isDigit) (l := cs)
  unfold numberLexeme
  simp only
  split
  · next d rest hdrop =>
    split
    · rw [hdrop] at hwhole
      have hfraction : '.' :: (d :: rest).takeWhile Char.isDigit <+: '.' :: d :: rest :=
        List.cons_prefix_cons.2 ⟨rfl, List.takeWhile_prefix _⟩
      obtain ⟨more, hmore⟩ := hfraction
      refine ⟨more, ?_⟩
      rw [List.append_assoc, hmore, hwhole]
    · exact List.takeWhile_prefix _
  · exact List.takeWhile_prefix _

theorem numberLexeme_cons {c : Char} (h : c.isDigit = true) (rest : List Char) :
    ∃ cs, numberLexeme (c :: rest) = c :: cs := by
  unfold numberLexeme
  simp only [List.takeWhile_cons, h, if_true]
  split
  · split
    · exact ⟨_, rfl⟩
    · exact ⟨_, rfl⟩
  · exact ⟨_, rfl⟩

/-- A number is made of digits, or of digits, a point and more digits. -/
theorem numberLexeme_cases (cs : List Char) :
    (∀ c ∈ numberLexeme cs, c.isDigit = true) ∨
    ∃ whole d fraction, numberLexeme cs = whole ++ '.' :: d :: fraction ∧
      (∀ c ∈ whole, c.isDigit = true) ∧ ∀ c ∈ d :: fraction, c.isDigit = true := by
  have hdigits : ∀ cs : List Char, ∀ c ∈ cs.takeWhile Char.isDigit, c.isDigit = true :=
    fun _ => List.all_eq_true.1 List.all_takeWhile
  unfold numberLexeme
  simp only
  split
  · next d rest _ =>
    split
    · next hd =>
      refine .inr ⟨_, d, rest.takeWhile Char.isDigit, by rw [List.takeWhile_cons_of_pos hd],
        hdigits cs, ?_⟩
      rw [← List.takeWhile_cons_of_pos hd]
      exact hdigits (d :: rest)
    · exact .inl (hdigits cs)
  · exact .inl (hdigits cs)

theorem spelling_ne_nil (s : Symbol) : s.spelling.toList ≠ [] := by
  cases s <;> decide

theorem isBlank_spelling (s : Symbol) : ∀ c ∈ s.spelling.toList, Text.isBlank c = false := by
  have hall : s.spelling.toList.all (fun c => !Text.isBlank c) = true := by cases s <;> decide
  simpa using hall

theorem toNat_of_isDigit {c : Char} (h : c.isDigit = true) : 48 ≤ c.toNat ∧ c.toNat ≤ 57 := by
  obtain ⟨hlow, hhigh⟩ := Bool.and_eq_true_iff.1 h
  exact ⟨UInt32.le_iff_toNat_le.1 (of_decide_eq_true hlow),
    UInt32.le_iff_toNat_le.1 (of_decide_eq_true hhigh)⟩

theorem toNat_of_isAlpha {c : Char} (h : c.isAlpha = true) : 65 ≤ c.toNat ∧ c.toNat ≤ 122 := by
  rcases Bool.or_eq_true_iff.1 h with h | h
  · obtain ⟨hlow, hhigh⟩ := of_decide_eq_true h
    have hhigh : c.toNat ≤ 90 := UInt32.le_iff_toNat_le.1 hhigh
    exact ⟨UInt32.le_iff_toNat_le.1 hlow, by omega⟩
  · obtain ⟨hlow, hhigh⟩ := Bool.and_eq_true_iff.1 h
    have hlow : 97 ≤ c.toNat := UInt32.le_iff_toNat_le.1 (of_decide_eq_true hlow)
    exact ⟨by omega, UInt32.le_iff_toNat_le.1 (of_decide_eq_true hhigh)⟩

/-- All blank characters lie outside the codes from `0` to `z`. -/
theorem isBlank_of_isAlphanum {c : Char} (h : c.isAlphanum = true) : Text.isBlank c = false := by
  have hcode : 48 ≤ c.toNat ∧ c.toNat ≤ 122 := by
    rcases Bool.or_eq_true_iff.1 h with h | h
    · have := toNat_of_isAlpha h
      omega
    · have := toNat_of_isDigit h
      omega
  simp only [Text.isBlank, Text.blankRanges, List.any_cons, List.any_nil, Bool.or_false,
    Bool.or_eq_false_iff, Bool.and_eq_false_iff, decide_eq_false_iff_not]
  omega

theorem isDigit_of_startsWord {c : Char} (h : startsWord c = true) : c.isDigit = false := by
  simp only [startsWord, Bool.or_eq_true, beq_iff_eq] at h
  rcases h with h | rfl
  · refine Bool.eq_false_iff.2 fun hdigit => ?_
    have := toNat_of_isAlpha h
    have := toNat_of_isDigit hdigit
    omega
  · decide

theorem isBlank_of_startsWord {c : Char} (h : startsWord c = true) : Text.isBlank c = false := by
  simp only [startsWord, Bool.or_eq_true, beq_iff_eq] at h
  rcases h with h | rfl
  · exact isBlank_of_isAlphanum (by simp [Char.isAlphanum, h])
  · decide

theorem isBlank_of_continuesWord {c : Char} (h : continuesWord c = true) :
    Text.isBlank c = false := by
  simp only [continuesWord, Bool.or_eq_true, beq_iff_eq] at h
  rcases h with h | rfl
  · exact isBlank_of_isAlphanum h
  · decide

theorem isBlank_of_isDigit {c : Char} (h : c.isDigit = true) : Text.isBlank c = false :=
  isBlank_of_isAlphanum (by simp [Char.isAlphanum, h])

theorem Lexeme.ne_nil {kind : TokenKind} {w rest : List Char} (h : Lexeme kind w rest) :
    w ≠ [] := by
  cases h with
  | number _ _ => exact List.cons_ne_nil _ _
  | word _ _ => exact List.cons_ne_nil _ _
  | symbol _ _ _ _ => exact spelling_ne_nil _

/-- Lexemes are tokens of code, and braces are none of them. -/
theorem Lexeme.isPlain {kind : TokenKind} {w rest : List Char} (h : Lexeme kind w rest) :
    kind.isPlain = true ∧ kind ≠ .symbol .lbrace ∧ kind ≠ .symbol .rbrace := by
  cases h with
  | number _ _ =>
    unfold numberKind
    split <;> simp [TokenKind.isPlain]
  | word _ _ =>
    unfold TokenKind.ofWord
    split
    · simp [TokenKind.isPlain]
    split
    · simp [TokenKind.isPlain]
    split <;> simp [TokenKind.isPlain]
  | symbol hopen hclose _ _ => simp [TokenKind.isPlain, hopen, hclose]

/-- Nothing blank belongs to a lexeme. -/
theorem Lexeme.isBlank_eq_false {kind : TokenKind} {w rest : List Char} (h : Lexeme kind w rest) :
    ∀ c ∈ w, Text.isBlank c = false := by
  cases h with
  | number _ hlexeme =>
    rw [← hlexeme]
    rcases numberLexeme_cases _ with hdigits | ⟨whole, d, fraction, hparts, hwhole, hfraction⟩
    · exact fun c hc => isBlank_of_isDigit (hdigits c hc)
    · rw [hparts]
      intro c hc
      rcases List.mem_append.1 hc with hc | hc
      · exact isBlank_of_isDigit (hwhole c hc)
      rcases List.mem_cons.1 hc with rfl | hc
      · decide
      · exact isBlank_of_isDigit (hfraction c hc)
  | word hword hlexeme =>
    intro c hc
    rcases List.mem_cons.1 hc with rfl | hc
    · exact isBlank_of_startsWord hword
    · rw [← hlexeme] at hc
      exact isBlank_of_continuesWord (List.all_eq_true.1 List.all_takeWhile c hc)
  | symbol _ _ _ _ => exact isBlank_spelling _

/-! Nothing blank belongs to a lexeme, so what follows a blank character, or the end of a line, does
not matter. -/

def StartsBlank (cs : List Char) : Prop := ∀ c ∈ cs.head?, Text.isBlank c = true

theorem takeWhile_append_blank {p : Char → Bool} (hp : ∀ c, p c = true → Text.isBlank c = false)
    {tail : List Char} (htail : StartsBlank tail) (cs : List Char) :
    (cs ++ tail).takeWhile p = cs.takeWhile p := by
  induction cs with
  | nil =>
    cases tail with
    | nil => rfl
    | cons c tail =>
      have hblank : Text.isBlank c = true := htail c rfl
      have hc : ¬ p c = true := fun hc => absurd hblank (by simp [hp c hc])
      rw [List.nil_append, List.takeWhile_cons_of_neg hc, List.takeWhile_nil]
  | cons c cs ih => simp [List.takeWhile_cons, ih]

theorem dropWhile_append_blank {p : Char → Bool} (hp : ∀ c, p c = true → Text.isBlank c = false)
    {tail : List Char} (htail : StartsBlank tail) (cs : List Char) :
    (cs ++ tail).dropWhile p = cs.dropWhile p ++ tail := by
  have hwhole := List.takeWhile_append_dropWhile (p := p) (l := cs ++ tail)
  have hparts := List.takeWhile_append_dropWhile (p := p) (l := cs)
  rw [takeWhile_append_blank hp htail] at hwhole
  have hsame : cs.takeWhile p ++ (cs ++ tail).dropWhile p =
      cs.takeWhile p ++ (cs.dropWhile p ++ tail) := by
    rw [hwhole, ← List.append_assoc, hparts]
  exact List.append_cancel_left hsame

/-- A blank character ends a number, also right behind its digits or its point. -/
theorem numberLexeme_append_blank {tail : List Char} (htail : StartsBlank tail) (cs : List Char) :
    numberLexeme (cs ++ tail) = numberLexeme cs := by
  have hdigits := fun cs => takeWhile_append_blank (fun _ => isBlank_of_isDigit) htail cs
  unfold numberLexeme
  simp only [hdigits, dropWhile_append_blank (fun _ => isBlank_of_isDigit) htail]
  -- what follows the digits begins with the tail, or is a point in front of it, or does not reach
  -- it
  rcases cs.dropWhile Char.isDigit with _ | ⟨c, _ | ⟨d, rest⟩⟩
  · cases tail with
    | nil => rfl
    | cons c tail =>
      have hc : c ≠ '.' := by
        rintro rfl
        exact absurd (htail '.' rfl) (by decide)
      simp [hc]
  · cases tail with
    | nil => rfl
    | cons d tail =>
      have hd : ¬ d.isDigit = true :=
        fun hd => absurd (htail d rfl) (by simp [isBlank_of_isDigit hd])
      by_cases hc : c = '.'
      · subst hc
        simp [hd]
      · simp [hc]
  · by_cases hc : c = '.'
    · subst hc
      have hfraction := hdigits (d :: rest)
      simp only [List.cons_append] at hfraction ⊢
      rw [hfraction]
    · simp [hc]

theorem isPrefixOf_append_blank {w : List Char} (hw : ∀ c ∈ w, Text.isBlank c = false)
    {tail : List Char} (htail : StartsBlank tail) (cs : List Char) :
    w.isPrefixOf (cs ++ tail) = w.isPrefixOf cs := by
  induction w generalizing cs with
  | nil => simp
  | cons c w ih =>
    obtain ⟨hc, hw⟩ := List.forall_mem_cons.1 hw
    cases cs with
    | nil =>
      cases tail with
      | nil => rfl
      | cons d tail =>
        have hd : c ≠ d := by
          rintro rfl
          exact absurd (htail c rfl) (by simp [hc])
        simp [List.isPrefixOf, hd]
    | cons d cs => simp [List.isPrefixOf, ih hw]

/-- No symbol is spelled with a blank character. -/
theorem symbolAt?_append_blank {tail : List Char} (htail : StartsBlank tail) (cs : List Char) :
    symbolAt? (cs ++ tail) = symbolAt? cs := by
  unfold symbolAt?
  simp only [isPrefixOf_append_blank (isBlank_spelling _) htail]

theorem head?_append_blank {tail : List Char} (htail : StartsBlank tail) {c : Char}
    (hc : Text.isBlank c = false) (cs : List Char) :
    (cs ++ tail).head? = some c ↔ cs.head? = some c := by
  cases cs with
  | nil =>
    refine ⟨fun h => ?_, fun h => by cases h⟩
    exact absurd (htail c h) (by simp [hc])
  | cons d cs => rfl

/-- A lexeme depends on what follows it only through what the scanner reads at its beginning. -/
theorem Lexeme.congr {kind : TokenKind} {w rest rest' : List Char} (h : Lexeme kind w rest)
    (hnumber : ∀ cs, numberLexeme (cs ++ rest') = numberLexeme (cs ++ rest))
    (hword : ∀ cs, (cs ++ rest').takeWhile continuesWord = (cs ++ rest).takeWhile continuesWord)
    (hsymbol : ∀ cs, symbolAt? (cs ++ rest') = symbolAt? (cs ++ rest))
    (hslash : rest'.head? = some '/' ↔ rest.head? = some '/')
    (hstar : rest'.head? = some '*' ↔ rest.head? = some '*') :
    Lexeme kind w rest' := by
  cases h with
  | number hdigit hlexeme => exact .number hdigit ((hnumber (_ :: _)).trans hlexeme)
  | word hstarts hlexeme => exact .word hstarts ((hword _).trans hlexeme)
  | symbol hopen hclose hat hcomment =>
    refine .symbol hopen hclose ((hsymbol _).trans hat) fun hs => ?_
    obtain ⟨hline, hblock⟩ := hcomment hs
    exact ⟨mt hslash.1 hline, mt hstar.1 hblock⟩

/-- So a lexeme in front of a blank character is one whatever follows. -/
theorem lexeme_append_blank_iff {kind : TokenKind} {w rest tail : List Char}
    (htail : StartsBlank tail) :
    Lexeme kind w (rest ++ tail) ↔ Lexeme kind w rest := by
  have hnumber : ∀ cs, numberLexeme (cs ++ (rest ++ tail)) = numberLexeme (cs ++ rest) := by
    intro cs
    rw [← List.append_assoc, numberLexeme_append_blank htail]
  have hword : ∀ cs, (cs ++ (rest ++ tail)).takeWhile continuesWord =
      (cs ++ rest).takeWhile continuesWord := by
    intro cs
    rw [← List.append_assoc, takeWhile_append_blank (fun _ => isBlank_of_continuesWord) htail]
  have hsymbol : ∀ cs, symbolAt? (cs ++ (rest ++ tail)) = symbolAt? (cs ++ rest) := by
    intro cs
    rw [← List.append_assoc, symbolAt?_append_blank htail]
  have hslash := head?_append_blank htail (c := '/') (by decide) rest
  have hstar := head?_append_blank htail (c := '*') (by decide) rest
  constructor
  · intro h
    exact h.congr (fun cs => (hnumber cs).symm) (fun cs => (hword cs).symm)
      (fun cs => (hsymbol cs).symm) hslash.symm hstar.symm
  · intro h
    exact h.congr hnumber hword hsymbol hslash hstar

/-! ## 2. Text of string literals

`Written` relates a text to the characters that it is written with, and `Stops` says what ends it.
-/

/-- The characters `w` write the text of a string literal. -/
inductive Written : (text w : List Char) → Prop where
  | nil : Written [] []
  | escaped {e c : Char} {text w : List Char} :
      unescape e = some c → Written text w → Written (c :: text) ('\\' :: e :: w)
  | doubled {c : Char} {text w : List Char} :
      c = '{' ∨ c = '}' → Written text w → Written (c :: text) (c :: c :: w)
  | plain {c : Char} {text w : List Char} :
      c ≠ '"' → c ≠ '\\' → c ≠ '{' → (c = '}' → w.head? ≠ some '}') → Written text w →
      Written (c :: text) (c :: w)

/-- What stands behind a stretch of text that stops for the given reason. -/
inductive Stops : TextEnd → List Char → Prop where
  | quote {rest : List Char} : Stops .quote ('"' :: rest)
  | brace {rest : List Char} : rest.head? ≠ some '{' → Stops .brace ('{' :: rest)
  | badEscape {e : Char} {rest : List Char} :
      unescape e = none → Stops (.badEscape e) ('\\' :: e :: rest)
  | endOfLine : Stops .endOfLine []
  | backslash : Stops .endOfLine ['\\']

theorem Stops.head?_ne {stop : TextEnd} {tail : List Char} (h : Stops stop tail) :
    tail.head? ≠ some '}' := by
  cases h <;> simp

/-- A stretch of text, cut at its width, is written text and then what stops it. -/
def TextRun.Describes (run : TextRun) (cs : List Char) : Prop :=
  ∃ w tail, cs = w ++ tail ∧ run.width = w.length ∧ Written run.text w ∧ Stops run.stop tail

theorem TextRun.describes_of_stops {stop : TextEnd} {cs : List Char} (h : Stops stop cs) :
    TextRun.Describes ⟨[], 0, stop⟩ cs :=
  ⟨[], cs, rfl, rfl, .nil, h⟩

/-- One more character in front, in any of the ways to write it.  A closing brace alone needs to
know that no other one follows. -/
theorem TextRun.Describes.cons {run : TextRun} {cs : List Char} (pre : List Char) (c : Char)
    (h : run.Describes cs) (hpre : ∀ w, w.head? ≠ some '}' ∨ w.head? = cs.head? →
      Written run.text w → Written (c :: run.text) (pre ++ w)) :
    (run.cons c pre.length).Describes (pre ++ cs) := by
  obtain ⟨w, tail, rfl, hwidth, hw, hstop⟩ := h
  refine ⟨pre ++ w, tail, by simp, by simp [TextRun.cons, hwidth], hpre w ?_ hw, hstop⟩
  cases w with
  | nil => exact .inl (by simp)
  | cons d w => exact .inr rfl

/-- The scanner reads written text up to what stops it. -/
theorem describes_textRun (cs : List Char) : (textRun cs).Describes cs := by
  fun_induction textRun cs with
  | case1 => exact TextRun.describes_of_stops .endOfLine
  | case2 rest => exact TextRun.describes_of_stops .quote
  | case3 => exact TextRun.describes_of_stops .backslash
  | case4 e rest c he ih => exact ih.cons ['\\', e] c fun _ _ => .escaped he
  | case5 e rest he => exact TextRun.describes_of_stops (.badEscape he)
  | case6 rest ih => exact ih.cons ['{', '{'] '{' fun _ _ => .doubled (.inl rfl)
  | case7 rest ih => exact ih.cons ['}', '}'] '}' fun _ _ => .doubled (.inr rfl)
  | case8 rest hrest =>
    refine TextRun.describes_of_stops (.brace fun hhead => ?_)
    obtain ⟨more, rfl⟩ := List.head?_eq_some_iff.1 hhead
    exact hrest more rfl
  -- Any other character stands for itself.
  | case9 c rest hquote hback hescape _ hclose hopen ih =>
    have hbackslash : c ≠ '\\' := by
      rintro rfl
      cases rest with
      | nil => exact hback rfl rfl
      | cons e more => exact hescape e more rfl rfl
    refine ih.cons [c] c fun w hw hwritten => .plain hquote hbackslash hopen (fun hc => ?_) hwritten
    rcases hw with hw | hw
    · exact hw
    · intro hhead
      obtain ⟨more, rfl⟩ := List.head?_eq_some_iff.1 (hw.symm.trans hhead)
      exact hclose more hc rfl

theorem textRun_of_stops {stop : TextEnd} {tail : List Char} (h : Stops stop tail) :
    textRun tail = ⟨[], 0, stop⟩ := by
  cases h with
  | quote => rfl
  | @brace rest hrest =>
    cases rest with
    | nil => rfl
    | cons d rest =>
      have hd : d ≠ '{' := by simpa using hrest
      simp [textRun, hd]
  | badEscape he => simp [textRun, he]
  | endOfLine => rfl
  | backslash => rfl

/-- And written text is read back, whatever stops it. -/
theorem textRun_append {text w : List Char} (h : Written text w) {stop : TextEnd} {tail : List Char}
    (hstop : Stops stop tail) : textRun (w ++ tail) = ⟨text, w.length, stop⟩ := by
  induction h with
  | nil => exact textRun_of_stops hstop
  | escaped he _ ih => simp [textRun, he, ih, TextRun.cons]; omega
  | doubled hc _ ih =>
    rcases hc with rfl | rfl
    · simp [textRun, ih, TextRun.cons]; omega
    · simp [textRun, ih, TextRun.cons]; omega
  | @plain c text w hquote hbackslash hopen hclose _ ih =>
    have hpair : ∀ rest, c = '}' → w ++ tail = '}' :: rest → False := by
      rintro rest hc heq
      cases w with
      | nil => exact hstop.head?_ne (by simp_all)
      | cons d w => exact hclose hc (by simp_all)
    rw [List.cons_append, textRun.eq_8 _ _ hquote (fun h => absurd h hbackslash)
      (fun _ _ h => absurd h hbackslash) (fun _ h => absurd h hopen) hpair hopen, ih]
    simp [TextRun.cons, Nat.add_comm]

/-! ## 3. Comments -/

def Unclosed (cs : List Char) : Prop := ¬ ['*', '/'] <:+: cs

theorem unclosed_nil : Unclosed [] := by
  simp [Unclosed]

/-- A comment may end at its first two characters, or further on. -/
theorem unclosed_cons {c : Char} {cs : List Char} :
    Unclosed (c :: cs) ↔ (c = '*' → cs.head? ≠ some '/') ∧ Unclosed cs := by
  have hstart : ['*', '/'] <+: c :: cs ↔ c = '*' ∧ cs.head? = some '/' := by
    cases cs <;> simp [eq_comm]
  unfold Unclosed
  rw [List.infix_cons_iff, not_or, hstart, not_and]

theorem Unclosed.append {cs ds : List Char} (hcs : Unclosed cs) (hds : Unclosed ds)
    (hjoin : cs.getLast? = some '*' → ds.head? ≠ some '/') : Unclosed (cs ++ ds) := by
  induction cs with
  | nil => exact hds
  | cons c cs ih =>
    obtain ⟨hfirst, hrest⟩ := unclosed_cons.1 hcs
    refine unclosed_cons.2 ⟨fun hc => ?_,
      ih hrest fun hlast => hjoin (by simp [List.getLast?_cons, hlast])⟩
    cases cs with
    | nil => exact hjoin (by simp [hc])
    | cons d cs => exact hfirst hc

/-- A block comment ends at the first place where it can, if there is one. -/
theorem commentEnd?_cases (cs : List Char) :
    (∃ body rest, cs = body ++ '*' :: '/' :: rest ∧ commentEnd? cs = some (body.length + 2) ∧
      Unclosed (body ++ ['*'])) ∨
    (commentEnd? cs = none ∧ Unclosed cs) := by
  fun_induction commentEnd? cs with
  | case1 => exact .inr ⟨rfl, unclosed_nil⟩
  | case2 rest => exact .inl ⟨[], rest, rfl, rfl, by simp [unclosed_cons, unclosed_nil]⟩
  | case3 c rest hopen ih =>
    have hfirst : c = '*' → rest.head? ≠ some '/' := by
      intro hc hhead
      obtain ⟨more, rfl⟩ := List.head?_eq_some_iff.1 hhead
      exact hopen more hc rfl
    rcases ih with ⟨body, after, rfl, hend, hbody⟩ | ⟨hend, hrest⟩
    · refine .inl ⟨c :: body, after, rfl, by simp [hend], unclosed_cons.2 ⟨?_, hbody⟩⟩
      intro hc
      cases body <;> simp_all
    · exact .inr ⟨by rw [hend]; rfl, unclosed_cons.2 ⟨hfirst, hrest⟩⟩

end Scriptlet.Scan
