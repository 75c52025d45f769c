import Scriptlet.Proofs.Tiling

/-!
# Every token of code is as long as it can be

The scanner tries the symbols in the order of a table, takes the characters of a word up to the
first one that does not continue it, and joins a point to a number only in front of a digit.  Seen
from outside, the order of the table does not show: a symbol is the longest one that the source
begins with at its place, no character that could belong to a word or a number follows it, and a
word is reserved exactly if the whole of it is (`Scan.Munches`).

A step of the scanner sees only its own line.  What follows the line begins with a blank character,
and none of those belongs to a lexeme, so the longest match in the line is the longest match in the
source.

Numbers, words and the table of keywords are those of §4.1 of the specification.
-/

namespace Scriptlet

/-! ## 1. Kinds of tokens -/

namespace TokenKind

def isWord : TokenKind → Bool
  | .ident _ | .bool _ | .keyword _ => true
  | _ => false

def isNumber : TokenKind → Bool
  | .int _ | .float _ => true
  | _ => false

def reserved? : TokenKind → Option String
  | .bool true => some "true"
  | .bool false => some "false"
  | .keyword k => some k.spelling
  | _ => none

theorem isWord_of_reserved {kind : TokenKind} {word : String} (h : kind.reserved? = some word) :
    kind.isWord = true := by
  cases kind with
  | bool b => rfl
  | keyword k => rfl
  | _ => cases h

theorem ofWord_reserved {kind : TokenKind} {word : String} (h : kind.reserved? = some word) :
    ofWord word = kind := by
  cases kind with
  | bool b =>
    cases b with
    | true =>
      cases h
      rfl
    | false =>
      cases h
      rfl
  | keyword k =>
    cases h
    cases k <;> rfl
  | _ => cases h

/-- A word is an identifier or the word that is reserved for its kind. -/
theorem ofWord_cases (word : String) :
    ofWord word = .ident word ∨ (ofWord word).reserved? = some word := by
  unfold ofWord
  split
  · next h => exact .inr (h ▸ rfl)
  split
  · next h => exact .inr (h ▸ rfl)
  split
  · next k hfound =>
    have hspelling := List.find?_some hfound
    exact .inr (congrArg some (of_decide_eq_true hspelling))
  · exact .inl rfl

/-- A kind with a reserved word is the kind of that word and of no other one. -/
theorem ofWord_eq_iff {kind : TokenKind} {reserved word : String}
    (h : kind.reserved? = some reserved) :
    ofWord word = kind ↔ word = reserved := by
  constructor
  · rintro rfl
    rcases ofWord_cases word with hident | hword
    · rw [hident] at h
      cases h
    · exact Option.some.inj (hword.symm.trans h)
  · rintro rfl
    exact ofWord_reserved h

theorem isWord_ofWord (word : String) : (ofWord word).isWord = true := by
  rcases ofWord_cases word with hident | hword
  · rw [hident]
    rfl
  · exact isWord_of_reserved hword

end TokenKind

namespace Scan

theorem isNumber_numberKind (lexeme : List Char) : (numberKind lexeme).isNumber = true := by
  unfold numberKind
  split <;> rfl

theorem isWord_of_isNumber {kind : TokenKind} (h : kind.isNumber = true) : kind.isWord = false := by
  cases kind with
  | int n => rfl
  | float x => rfl
  | _ => cases h

/-! ## 2. What it is to be as long as possible -/

/-- The symbol is the longest one of the table that the text begins with. -/
structure LongestSymbol (s : Symbol) (text : List Char) : Prop where
  listed : s ∈ Symbol.all
  begins : s.spelling.toList <+: text
  longest : ∀ other ∈ Symbol.all, other ≠ s → other.spelling.toList <+: text →
    other.spelling.length < s.spelling.length

/-- The characters `w` in front of `rest` are a word, and the word ends there. -/
structure WholeWord (w rest : List Char) : Prop where
  word : ∃ c cs, w = c :: cs ∧ startsWord c = true ∧ ∀ d ∈ cs, continuesWord d = true
  ends : ∀ c ∈ rest.head?, continuesWord c = false

/-- The characters `w` in front of `rest` are a number, and the number ends there.  It has a point
exactly if there is a point with a digit behind it after the digits that it starts with. -/
structure WholeNumber (w rest : List Char) : Prop where
  number : (w ≠ [] ∧ ∀ c ∈ w, c.isDigit = true) ∨ ∃ whole fraction, w = whole ++ '.' :: fraction ∧
    (whole ≠ [] ∧ ∀ c ∈ whole, c.isDigit = true) ∧ fraction ≠ [] ∧ ∀ c ∈ fraction, c.isDigit = true
  ends : ∀ c ∈ rest.head?, c.isDigit = false
  point : '.' ∈ w ↔ ∃ whole d more, w ++ rest = whole ++ '.' :: d :: more ∧
    (∀ c ∈ whole, c.isDigit = true) ∧ d.isDigit = true

/-- A token of this kind, read from `lexeme` in front of `rest`, is as long as it can be, and its
kind is that of the whole of it. -/
structure Munches (kind : TokenKind) (lexeme rest : List Char) : Prop where
  symbol : ∀ s, kind = .symbol s → lexeme = s.spelling.toList ∧ LongestSymbol s (lexeme ++ rest)
  word : kind.isWord = true → WholeWord lexeme rest
  number : kind.isNumber = true → WholeNumber lexeme rest
  reserved : ∀ kind' word, kind'.reserved? = some word →
    (kind = kind' ↔ ∃ rest', lexeme ++ rest = word.toList ++ rest' ∧ WholeWord word.toList rest')

/-! ## 3. Symbols -/

/-- No symbol of the table is longer than one before it, and no two are spelled alike. -/
theorem symbols_sorted :
    Symbol.all.Pairwise fun s other =>
      other.spelling.length ≤ s.spelling.length ∧ s.spelling ≠ other.spelling := by
  decide +kernel

/-- The first symbol of the table that fits is the longest one, since the table is sorted. -/
theorem longestSymbol_of_symbolAt? {s : Symbol} {text : List Char} (h : symbolAt? text = some s) :
    LongestSymbol s text := by
  obtain ⟨hbegins, before, after, hall, hbefore⟩ := List.find?_eq_some_iff_append.1 h
  have hbegins : s.spelling.toList <+: text := List.isPrefixOf_iff_prefix.1 hbegins
  refine ⟨by simp [hall], hbegins, ?_⟩
  intro other hother hne hprefix
  have hafter : other ∈ after := by
    rw [hall, List.mem_append, List.mem_cons] at hother
    rcases hother with hother | rfl | hother
    · have hrefused := hbefore other hother
      rw [List.isPrefixOf_iff_prefix.2 hprefix] at hrefused
      cases hrefused
    · exact absurd rfl hne
    · exact hother
  have hsorted := symbols_sorted
  rw [hall] at hsorted
  obtain ⟨hshorter, hdiffers⟩ :=
    (List.pairwise_cons.1 (List.pairwise_append.1 hsorted).2.1).1 other hafter
  -- two beginnings of one text that are equally long are the same
  refine Nat.lt_of_le_of_ne hshorter fun hlength => hdiffers ?_
  have hsame : s.spelling.toList = other.spelling.toList := by
    refine (List.prefix_of_prefix_length_le hbegins hprefix ?_).eq_of_length ?_
    · simp [String.length_toList, hlength]
    · simp [String.length_toList, hlength]
  exact String.toList_inj.1 hsame

/-! ## 4. Words and numbers

A word ends where no character continues it.  A number may have a point only if a digit follows. -/

/-- What is taken is as long as it can be: all of it fits, and what follows does not. -/
theorem takeWhile_append_eq_iff {p : Char → Bool} {w rest : List Char} :
    (w ++ rest).takeWhile p = w ↔ (∀ c ∈ w, p c = true) ∧ ∀ c ∈ rest.head?, p c = false := by
  constructor
  · intro h
    have hw : ∀ c ∈ w, p c = true := by
      rw [← h]
      exact List.all_eq_true.1 List.all_takeWhile
    refine ⟨hw, ?_⟩
    intro c hc
    obtain ⟨more, rfl⟩ := List.head?_eq_some_iff.1 hc
    rw [List.takeWhile_append_of_pos hw] at h
    refine Bool.eq_false_iff.2 fun hgoes => ?_
    simp [List.takeWhile_cons_of_pos hgoes] at h
  · rintro ⟨hw, hrest⟩
    rw [List.takeWhile_append_of_pos hw]
    cases rest with
    | nil => simp
    | cons c rest => simp [hrest c rfl]

theorem wholeWord_cons_iff {c : Char} {cs rest : List Char} :
    WholeWord (c :: cs) rest ↔ startsWord c = true ∧ (cs ++ rest).takeWhile continuesWord = cs := by
  rw [takeWhile_append_eq_iff]
  constructor
  · rintro ⟨⟨d, ds, hword, hstarts, hcontinues⟩, hends⟩
    cases hword
    exact ⟨hstarts, hcontinues, hends⟩
  · rintro ⟨hstarts, hcontinues, hends⟩
    exact ⟨⟨c, cs, rfl, hstarts, hcontinues⟩, hends⟩

theorem WholeWord.exists_cons {w rest : List Char} (h : WholeWord w rest) :
    ∃ c cs, w = c :: cs := by
  obtain ⟨c, cs, hw, -⟩ := h.word
  exact ⟨c, cs, hw⟩

/-- A text begins with at most one whole word. -/
theorem WholeWord.unique {w rest v rest' : List Char} (h : WholeWord w rest)
    (h' : WholeWord v rest') (htext : w ++ rest = v ++ rest') : w = v := by
  obtain ⟨c, cs, rfl⟩ := h.exists_cons
  obtain ⟨d, ds, rfl⟩ := h'.exists_cons
  rw [List.cons_append, List.cons_append] at htext
  obtain ⟨rfl, htail⟩ := List.cons.inj htext
  have hcs := (wholeWord_cons_iff.1 h).2
  have hds := (wholeWord_cons_iff.1 h').2
  rw [← hcs, htail, hds]

/-- A text whose first character begins no word does not begin with a word. -/
theorem not_wholeWord_of_cons {c : Char} {cs : List Char} (hc : startsWord c = false)
    {word rest : List Char} (htext : c :: cs = word ++ rest) : ¬ WholeWord word rest := by
  intro h
  obtain ⟨d, ds, rfl⟩ := h.exists_cons
  obtain ⟨rfl, -⟩ := List.cons.inj htext
  rw [(wholeWord_cons_iff.1 h).1] at hc
  cases hc

/-- The digits at the beginning of a text, and what follows them. -/
theorem exists_digits (text : List Char) :
    ∃ whole tail, text = whole ++ tail ∧ text.takeWhile Char.isDigit = whole ∧
      text.dropWhile Char.isDigit = tail ∧ (∀ c ∈ whole, c.isDigit = true) ∧
      ∀ c ∈ tail.head?, c.isDigit = false := by
  have hsplit := List.takeWhile_append_dropWhile (p := Char.isDigit) (l := text)
  obtain ⟨hdigits, hends⟩ :=
    takeWhile_append_eq_iff.1 (congrArg (List.takeWhile Char.isDigit) hsplit)
  exact ⟨_, _, hsplit.symm, rfl, rfl, hdigits, hends⟩

theorem point_notMem_of_digits {w : List Char} (h : ∀ c ∈ w, c.isDigit = true) : '.' ∉ w := by
  intro hpoint
  exact absurd (h '.' hpoint) (by decide)

/-- What the scanner takes of a text that begins with a digit is a whole number. -/
theorem wholeNumber_numberLexeme {c : Char} (hc : c.isDigit = true) (cs : List Char) :
    ∃ rest, c :: cs = numberLexeme (c :: cs) ++ rest ∧
      WholeNumber (numberLexeme (c :: cs)) rest := by
  obtain ⟨whole, tail, htext, htake, hdrop, hwhole, htail⟩ := exists_digits (c :: cs)
  have hne : whole ≠ [] := by
    rw [← htake, List.takeWhile_cons_of_pos hc]
    exact List.cons_ne_nil _ _
  by_cases hpoint : ∃ d more, tail = '.' :: d :: more ∧ d.isDigit = true
  · obtain ⟨d, more, rfl, hd⟩ := hpoint
    obtain ⟨fraction, rest, hmore, hfraction, -, hdigits, hrest⟩ := exists_digits (d :: more)
    have hlexeme : numberLexeme (c :: cs) = whole ++ '.' :: fraction := by
      simp [numberLexeme, htake, hdrop, hd, hfraction]
    have hfractionNe : fraction ≠ [] := by
      rw [← hfraction, List.takeWhile_cons_of_pos hd]
      exact List.cons_ne_nil _ _
    rw [hlexeme]
    refine ⟨rest, by simp [htext, hmore],
      .inr ⟨whole, fraction, rfl, ⟨hne, hwhole⟩, hfractionNe, hdigits⟩, hrest, ?_⟩
    refine iff_of_true (by simp) ⟨whole, d, more, ?_, hwhole, hd⟩
    simp [hmore]
  · have hlexeme : numberLexeme (c :: cs) = whole := by
      unfold numberLexeme
      simp only [htake, hdrop]
      split
      · next d more => rw [if_neg fun hd => hpoint ⟨d, more, rfl, hd⟩]
      · rfl
    rw [hlexeme]
    refine ⟨tail, htext, .inl ⟨hne, hwhole⟩, htail, ?_⟩
    refine iff_of_false (point_notMem_of_digits hwhole) ?_
    -- digits in front of a point are all the digits that the text begins with
    rintro ⟨whole', d, more, hsame, hdigits, hd⟩
    have htake' : (whole' ++ '.' :: d :: more).takeWhile Char.isDigit = whole' :=
      takeWhile_append_eq_iff.2 ⟨hdigits, fun c hc => by cases hc; decide⟩
    rw [← hsame, ← htext, htake] at htake'
    subst htake'
    exact hpoint ⟨d, more, List.append_cancel_left hsame, hd⟩

/-! ## 5. Lexemes -/

/-- A token that does not begin like a word is of no reserved kind, and no reserved word stands at
its place. -/
theorem reserved_of_not_word {kind : TokenKind} {c : Char} {cs rest : List Char}
    (hkind : kind.isWord = false) (hc : startsWord c = false) (kind' : TokenKind) (word : String)
    (hword : kind'.reserved? = some word) :
    kind = kind' ↔
      ∃ rest', c :: cs ++ rest = word.toList ++ rest' ∧ WholeWord word.toList rest' := by
  refine iff_of_false ?_ ?_
  · rintro rfl
    rw [TokenKind.isWord_of_reserved hword] at hkind
    cases hkind
  · rintro ⟨rest', htext, hwhole⟩
    exact not_wholeWord_of_cons hc htext hwhole

theorem munches_symbol {s : Symbol} {c : Char} {cs rest : List Char}
    (hs : s.spelling.toList = c :: cs) (hc : startsWord c = false)
    (hat : symbolAt? (c :: cs ++ rest) = some s) :
    Munches (.symbol s) (c :: cs) rest where
  symbol := by
    intro s' hs'
    cases hs'
    exact ⟨hs.symm, longestSymbol_of_symbolAt? hat⟩
  word h := by cases h
  number h := by cases h
  reserved := reserved_of_not_word rfl hc

/-- A number is no word, so only the conditions on numbers are left. -/
theorem munches_number {c : Char} {cs rest : List Char} (hc : c.isDigit = true)
    (h : WholeNumber (c :: cs) rest) :
    Munches (numberKind (c :: cs)) (c :: cs) rest := by
  have hkind := isNumber_numberKind (c :: cs)
  have hword : startsWord c = false := by
    refine Bool.eq_false_iff.2 fun hstarts => ?_
    rw [isDigit_of_startsWord hstarts] at hc
    cases hc
  refine ⟨?_, ?_, fun _ => h, reserved_of_not_word (isWord_of_isNumber hkind) hword⟩
  · intro s hs
    rw [hs] at hkind
    cases hkind
  · intro hisWord
    rw [isWord_of_isNumber hkind] at hisWord
    cases hisWord

/-- A word is reserved if and only if all of it is, and not only its beginning. -/
theorem munches_word {c : Char} {cs rest : List Char} (h : WholeWord (c :: cs) rest) :
    Munches (.ofWord (String.ofList (c :: cs))) (c :: cs) rest := by
  have hkind := TokenKind.isWord_ofWord (String.ofList (c :: cs))
  refine ⟨?_, fun _ => h, ?_, ?_⟩
  · intro s hs
    rw [hs] at hkind
    cases hkind
  · intro hisNumber
    rw [isWord_of_isNumber hisNumber] at hkind
    cases hkind
  · intro kind' word hword
    rw [TokenKind.ofWord_eq_iff hword, ← String.toList_inj, String.toList_ofList]
    constructor
    · intro hsame
      exact ⟨rest, by rw [hsame], hsame ▸ h⟩
    · rintro ⟨rest', htext, hreserved⟩
      exact h.unique hreserved htext

/-- Whatever the scanner reads as a lexeme is as long as it can be. -/
theorem Lexeme.munches {kind : TokenKind} {w rest : List Char} (h : Lexeme kind w rest) :
    Munches kind w rest := by
  cases h with
  | @number c cs _ hdigit hlexeme =>
    obtain ⟨rest', htext, hnumber⟩ := wholeNumber_numberLexeme hdigit (cs ++ rest)
    rw [hlexeme] at htext hnumber
    obtain rfl : rest = rest' := List.append_cancel_left (List.cons.inj htext).2
    exact munches_number hdigit hnumber
  | word hstarts hlexeme => exact munches_word (wholeWord_cons_iff.2 ⟨hstarts, hlexeme⟩)
  | @symbol s _ hopen hclose hat _ =>
    obtain ⟨c, cs, hs⟩ := List.exists_cons_of_ne_nil (spelling_ne_nil s)
    rw [hs] at hat ⊢
    exact munches_symbol hs (spelling_eq_cons hs hopen hclose).2.2.2.1 hat

theorem Brace.munches {c : Char} {kind : TokenKind} {modes modes' : List Mode}
    (h : Brace c kind modes modes') (hplain : kind.isPlain = true) (rest : List Char) :
    Munches kind [c] rest := by
  have hopen : Munches (.symbol .lbrace) ['{'] rest := munches_symbol rfl (by decide) rfl
  have hclose : Munches (.symbol .rbrace) ['}'] rest := munches_symbol rfl (by decide) rfl
  cases h with
  | openOutside => exact hopen
  | openInside => exact hopen
  | closeOutside => exact hclose
  | closeInside => exact hclose
  | closeInterp => cases hplain

/-! ## 6. Steps and runs

What follows a token in its line is what follows it in the source, up to the end of the line. -/

/-- The token stands in the source, which begins at `p`, and is as long as it can be there. -/
def MunchedIn (p : Position) (source : List Char) (t : Token) : Prop :=
  ∃ before rest, source = before ++ (t.lexeme.toList ++ rest) ∧ t.position = p.after before ∧
    Munches t.kind t.lexeme.toList rest

theorem MunchedIn.behind {p : Position} {taken source : List Char} {t : Token}
    (h : MunchedIn (p.after taken) source t) : MunchedIn p (taken ++ source) t := by
  obtain ⟨before, rest, rfl, hposition, hmunches⟩ := h
  refine ⟨taken ++ before, rest, by simp, ?_, hmunches⟩
  rw [hposition, Position.after_append]

theorem munchedIn_token {p : Position} {kind : TokenKind} {w rest : List Char}
    (h : Munches kind w rest) :
    MunchedIn p (w ++ rest) (token kind w p) := by
  have hlexeme : (token kind w p).lexeme.toList = w := String.toList_ofList
  exact ⟨[], rest, by rw [hlexeme]; rfl, rfl, hlexeme.symm ▸ h⟩

/-- Lines end in blank characters or with the source. -/
theorem EndsLine.startsBlank {cs : List Char} (h : EndsLine cs) : StartsBlank cs := by
  intro c hc
  rcases h with rfl | ⟨ending, rest, rfl | rfl, rfl⟩
  · cases hc
  · cases hc
    decide
  · cases hc
    decide

theorem isPlain_of_mem_textToken {text : List Char} {p : Position} {t : Token}
    (h : t ∈ textToken text p) :
    t.kind.isPlain = false := by
  cases text with
  | nil => cases h
  | cons c text =>
    obtain rfl := List.mem_singleton.1 h
    rfl

/-- What a step reads as code is as long as it can be, whatever follows the line. -/
theorem Reads.munched {p : Position} {s s' : State} {taken rest tail : List Char}
    {tokens : List Token} (h : Reads p s taken rest tokens s') (htail : EndsLine tail) {t : Token}
    (ht : t ∈ tokens) (hplain : t.kind.isPlain = true) :
    MunchedIn p (taken ++ (rest ++ tail)) t := by
  cases h with
  | commentEnd _ | commentLine _ _ | blank _ _ | lineComment _ | commentStart _ => cases ht
  | lexeme _ hlexeme =>
    obtain rfl := List.mem_singleton.1 ht
    exact munchedIn_token ((lexeme_append_blank_iff htail.startsBlank).2 hlexeme).munches
  | brace hbrace =>
    obtain rfl := List.mem_singleton.1 ht
    exact munchedIn_token (hbrace.munches hplain _)
  | strOpen _ =>
    obtain rfl := List.mem_singleton.1 ht
    cases hplain
  | strClose _ | interpOpen _ _ =>
    rcases List.mem_append.1 ht with ht | ht
    · rw [isPlain_of_mem_textToken ht] at hplain
      cases hplain
    · obtain rfl := List.mem_singleton.1 ht
      cases hplain

theorem linesFrom_munched {n : Nat} {b : Bool} {source : List Char} {lines : List (List Char)}
    {tokens : List Token} (hsource : SplitsInto source lines)
    (h : linesFrom n b lines = .ok tokens) :
    ∀ t ∈ tokens, t.kind.isPlain = true → MunchedIn ⟨n, 1⟩ source t := by
  refine linesFrom_induction
    (P := fun p _ source tokens => ∀ t ∈ tokens, t.kind.isPlain = true →
      MunchedIn p source t) ?_ ?_ ?_ hsource h
  · intro p b t ht
    cases ht
  · intro p b ending source tokens hending ih t ht hplain
    have hafter : p.after ending = ⟨p.line + 1, 1⟩ := by rcases hending with rfl | rfl <;> rfl
    exact (hafter ▸ ih t ht hplain).behind
  · intro p s taken rest tail tokens s' more _ htaken htail hreads ih t ht hplain
    rcases List.mem_append.1 ht with ht | ht
    · exact hreads.munched htail ht hplain
    · rw [← Position.after_of_notMem htaken] at ih
      exact (ih t ht hplain).behind

end Scan

/-- Every token of code in a source that scans stands where it says and is as long as it can be.  A
symbol is the longest one that the source begins with at its place.  No character that continues a
word follows a word, and no digit follows a number; a number has a point exactly if a point and a
digit follow its first digits.  A token is of a reserved kind exactly if the whole word at its place
is reserved for that kind. -/
theorem tokens_munch_maximally {source : String} {tokens : List Token}
    (h : Token.scan source = .ok tokens) :
    ∀ t ∈ tokens, t.kind.isPlain = true →
    ∃ before rest, source.toList = before ++ (t.lexeme.toList ++ rest) ∧
      t.position = Position.start.after before ∧ Scan.Munches t.kind t.lexeme.toList rest := by
  obtain ⟨body, hbody, rfl⟩ := Scan.scan_eq_ok h
  intro t ht hplain
  rcases List.mem_append.1 ht with ht | ht
  · exact Scan.linesFrom_munched (Scan.splitsInto_lines source.toList) hbody t ht hplain
  · obtain rfl := List.mem_singleton.1 ht
    cases hplain

/-- Symbols that begin like others, a keyword at the beginning of an identifier and alone, and a
number with a point, all without a space between them. -/
def unspacedSource : String := "iff<<=>x+++1.5\nif/=$a_1"

def unspacedTokens : List Token :=
  [Scan.token (.ident "iff") ['i', 'f', 'f'] ⟨1, 1⟩,
   Scan.token (.symbol .shlAssign) ['<', '<', '='] ⟨1, 4⟩,
   Scan.token (.symbol .greater) ['>'] ⟨1, 7⟩,
   Scan.token (.ident "x") ['x'] ⟨1, 8⟩,
   Scan.token (.symbol .plusPlus) ['+', '+'] ⟨1, 9⟩,
   Scan.token (.symbol .plus) ['+'] ⟨1, 11⟩,
   Scan.token (Scan.numberKind ['1', '.', '5']) ['1', '.', '5'] ⟨1, 12⟩,
   Scan.token (.keyword .kwIf) ['i', 'f'] ⟨2, 1⟩,
   Scan.token (.symbol .slashAssign) ['/', '='] ⟨2, 3⟩,
   Scan.token (.ident "$a_1") ['$', 'a', '_', '1'] ⟨2, 5⟩,
   Scan.token .eof [] ⟨2, 9⟩]

theorem scan_unspacedSource : Token.scan unspacedSource = .ok unspacedTokens := by
  with_unfolding_all rfl

theorem unspacedSource_munched :
    Token.scan unspacedSource = .ok unspacedTokens ∧
    ∀ t ∈ unspacedTokens, t.kind.isPlain = true → ∃ before rest,
      unspacedSource.toList = before ++ (t.lexeme.toList ++ rest) ∧
      t.position = Position.start.after before ∧
        Scan.Munches t.kind t.lexeme.toList rest :=
  ⟨scan_unspacedSource, tokens_munch_maximally scan_unspacedSource⟩

end Scriptlet
