import Scriptlet.Proofs.ScanSteps

/-!
# Tokens tile the source

A source is cut into segments: the characters of its tokens, blanks and comments.  `Tiled p
segments` says that each segment is what it should be at its place, the first one at `p`; a step of
the scanner puts its own segments in front.  From this follow the order of the tokens, that they do
not overlap, and where each of them stands in its line (`tokens_tile_source`).

Section §4.1 of the specification says what the scanner skips and how it counts lines and columns.
-/

namespace Scriptlet

/-! ## 1. Positions

Places are ordered by line and then by column. -/

instance : LT Position := ⟨fun p q => p.line < q.line ∨ p.line = q.line ∧ p.column < q.column⟩

instance : LE Position := ⟨fun p q => p.line < q.line ∨ p.line = q.line ∧ p.column ≤ q.column⟩

namespace Position

theorem lt_iff {p q : Position} : p < q ↔ p.line < q.line ∨ p.line = q.line ∧ p.column < q.column :=
  Iff.rfl

theorem le_iff {p q : Position} : p ≤ q ↔ p.line < q.line ∨ p.line = q.line ∧ p.column ≤ q.column :=
  Iff.rfl

theorem le_trans {p q r : Position} (hpq : p ≤ q) (hqr : q ≤ r) : p ≤ r := by
  rw [le_iff] at *
  omega

theorem lt_of_right_le {p q : Position} {n : Nat} (hn : 0 < n) (h : p.right n ≤ q) : p < q := by
  simp only [le_iff, lt_iff, right] at *
  omega

/-- The place behind these characters, if they begin at `p`. -/
def after (p : Position) : List Char → Position
  | [] => p
  | c :: cs => (if c = '\n' then ⟨p.line + 1, 1⟩ else p.right 1).after cs

theorem after_append (p : Position) (cs ds : List Char) :
    p.after (cs ++ ds) = (p.after cs).after ds := by
  induction cs generalizing p with
  | nil => rfl
  | cons c cs ih => exact ih _

theorem after_of_notMem {p : Position} {cs : List Char} (h : '\n' ∉ cs) :
    p.after cs = p.right cs.length := by
  induction cs generalizing p with
  | nil => rfl
  | cons c cs ih =>
    obtain ⟨hc, hcs⟩ := not_or.1 (mt List.mem_cons.2 h)
    simp [after, Ne.symm hc, ih hcs, right, Nat.add_comm, Nat.add_left_comm]

theorem right_length_append_mark (p : Position) (w : List Char) (mark : Char) :
    p.right (w ++ [mark]).length = (p.right w.length).right 1 := by
  simp [right, Nat.add_assoc]

theorem le_after (p : Position) (cs : List Char) : p ≤ p.after cs := by
  induction cs generalizing p with
  | nil => exact .inr ⟨rfl, Nat.le_refl _⟩
  | cons c cs ih =>
    refine le_trans ?_ (ih _)
    split
    · exact .inl (Nat.lt_succ_self _)
    · exact .inr ⟨rfl, Nat.le_add_right _ 1⟩

end Position

/-! ## 2. Places in lines

Going through a source by characters and looking a place up in its lines come to the same. -/

/-- What stands in its line from a place on. -/
def Text.restOfLine (source : List Char) : Position → List Char
  | ⟨line + 1, column + 1⟩ => ((Text.lines source).getD line []).drop column
  | _ => []

/-- Seen from `p`, the lines of the source are those of `rest`. -/
def Text.LinesFrom (source : List Char) (p : Position) (rest : List Char) : Prop :=
  ∃ line column, p = ⟨line + 1, column + 1⟩ ∧
    ((Text.lines source).getD line []).drop column = (Text.lines rest).headD [] ∧
    (Text.lines source).drop (line + 1) = (Text.lines rest).tail

namespace Text

theorem lines_cons {c : Char} {rest : List Char} (hc : c ≠ '\n')
    (hrest : c = '\r' → rest.head? ≠ some '\n') :
    lines (c :: rest) = (c :: (lines rest).headD []) :: (lines rest).tail := by
  have hpair : ∀ more, c = '\r' → rest = '\n' :: more → False := by
    rintro more hc rfl
    exact hrest hc rfl
  rw [lines.eq_4 _ _ hc hpair]
  cases lines rest <;> rfl

/-- One character further on in its line, less of the line is left and the same lines follow. -/
theorem lines_tail_of_ne {c : Char} (hc : c ≠ '\n') (rest : List Char) :
    ((lines (c :: rest)).headD []).drop 1 = (lines rest).headD [] ∧
    (lines (c :: rest)).tail = (lines rest).tail := by
  -- a carriage return in front of a line feed is no part of the line, so nothing of the line is
  -- left at either place
  by_cases hending : c = '\r' ∧ rest.head? = some '\n'
  · obtain ⟨rfl, hhead⟩ := hending
    obtain ⟨more, rfl⟩ := List.head?_eq_some_iff.1 hhead
    exact ⟨rfl, rfl⟩
  · rw [lines_cons hc (not_and.1 hending)]
    exact ⟨rfl, rfl⟩

theorem linesFrom_start (source : List Char) : LinesFrom source .start source :=
  ⟨0, 0, rfl, by cases lines source <;> rfl, by cases lines source <;> rfl⟩

theorem LinesFrom.step {source : List Char} {p : Position} {c : Char} {rest : List Char}
    (h : LinesFrom source p (c :: rest)) : LinesFrom source (p.after [c]) rest := by
  obtain ⟨line, column, rfl, hhere, hmore⟩ := h
  by_cases hc : c = '\n'
  · subst hc
    rw [lines.eq_2, List.tail_cons] at hmore
    refine ⟨line + 1, 0, rfl, ?_, ?_⟩
    · rw [← hmore, List.headD_eq_head?_getD, List.head?_drop]
      rfl
    · rw [← hmore, List.tail_drop]
  · obtain ⟨hhead, htail⟩ := lines_tail_of_ne hc rest
    have hright : Position.after ⟨line + 1, column + 1⟩ [c] = ⟨line + 1, column + 1 + 1⟩ := by
      simp [Position.after, hc, Position.right]
    refine ⟨line, column + 1, hright, ?_, ?_⟩
    · rw [← List.drop_drop, hhere, hhead]
    · rw [hmore, htail]

theorem LinesFrom.append {source : List Char} {p : Position} {cs rest : List Char}
    (h : LinesFrom source p (cs ++ rest)) : LinesFrom source (p.after cs) rest := by
  induction cs generalizing p with
  | nil => exact h
  | cons c cs ih => exact ih h.step

theorem LinesFrom.restOfLine {source rest : List Char} {p : Position}
    (h : LinesFrom source p rest) :
    restOfLine source p = (lines rest).headD [] := by
  obtain ⟨line, column, rfl, hhere, -⟩ := h
  exact hhere

/-- The line does not end inside of the characters `w` in front of `rest`. -/
def InLine (w rest : List Char) : Prop :=
  '\n' ∉ w ∧ (w.getLast? = some '\r' → rest.head? ≠ some '\n')

theorem InLine.begins_line {w rest : List Char} (h : InLine w rest) :
    w <+: (lines (w ++ rest)).headD [] := by
  induction w with
  | nil => exact List.nil_prefix
  | cons c w ih =>
    obtain ⟨hnewline, hlast⟩ := h
    obtain ⟨hc, hw⟩ := not_or.1 (mt List.mem_cons.2 hnewline)
    have hnext : c = '\r' → (w ++ rest).head? ≠ some '\n' := by
      rintro rfl hhead
      cases w with
      | nil => exact hlast rfl hhead
      | cons d w => exact hw (by simp_all)
    have htail : InLine w rest := ⟨hw, fun hw => hlast (by simp [List.getLast?_cons, hw])⟩
    rw [List.cons_append, lines_cons (Ne.symm hc) hnext]
    exact List.cons_prefix_cons.2 ⟨rfl, ih htail⟩

theorem inLine_of_notMem {w : List Char} (hnewline : '\n' ∉ w) (hreturn : '\r' ∉ w)
    (rest : List Char) : InLine w rest :=
  ⟨hnewline, fun h => absurd (List.mem_of_getLast? h) hreturn⟩

end Text

/-! ## 3. Segments

A segment keeps the characters that it was read from, which for text are more than the text. -/

/-- A stretch of source text: the characters of a token, or something that is skipped. -/
inductive Segment where
  | token (t : Token) (written : List Char)
  | blank (c : Char)
  | lineComment (body : List Char)
  | blockComment (body : List Char)
  /-- A block comment that is still open at the end of the source. -/
  | openComment (body : List Char)

namespace Segment

def chars : Segment → List Char
  | token _ written => written
  | blank c => [c]
  | lineComment body => '/' :: '/' :: body
  | blockComment body => '/' :: '*' :: (body ++ ['*', '/'])
  | openComment body => '/' :: '*' :: body

def token? : Segment → Option Token
  | token t _ => some t
  | _ => none

/-- Whether the segment is blank or a whole comment, in front of the characters `rest`. -/
def Skips : Segment → (rest : List Char) → Prop
  | token _ _, _ => False
  | blank c, _ => Text.isBlank c = true
  | lineComment body, rest => '\n' ∉ body ∧ Scan.EndsLine rest
  | blockComment body, _ => Scan.Unclosed (body ++ ['*'])
  | openComment body, rest => Scan.Unclosed body ∧ rest = []

def HasKind (kinds : List TokenKind) : Segment → Prop
  | token t _ => t.kind ∈ kinds
  | _ => False

def IsText : Segment → Prop
  | token t _ => t.kind.isText = true
  | _ => False

end Segment

/-- What it is to cut a source into segments, with each token in its place. -/
structure Tiles (source : List Char) (segments : List Segment) : Prop where
  covers : segments.flatMap Segment.chars = source
  increasing : (segments.filterMap Segment.token?).Pairwise (·.position < ·.position)
  disjoint : segments.Pairwise fun x y => ∀ t w u v, x = .token t w → y = .token u v →
    t.position.right w.length ≤ u.position
  placed : ∀ before t w after, segments = before ++ .token t w :: after →
    t.position = Position.start.after (before.flatMap Segment.chars) ∧ w ≠ [] ∧
      w <+: Text.restOfLine source t.position
  lexemes : ∀ t w, .token t w ∈ segments → t.kind.isText = false → w = t.lexeme.toList
  texts : ∀ before x after, segments = before ++ x :: after → x.IsText →
    (∃ y ∈ before.getLast?, y.HasKind [.strOpen, .interpClose]) ∧
    ∃ y ∈ after.head?, y.HasKind [.interpOpen, .strClose]
  skipped : ∀ before x after, segments = before ++ x :: after → x.token? = none →
    x.Skips (after.flatMap Segment.chars)

/-! ## 4. Tilings from a place on

The conditions of `Tiles`, each with what comes behind a segment only, so that segments can be put
in front one by one. -/

/-- The token is written as `w` at `p`, in front of the segments `after`. -/
structure Token.Stands (t : Token) (w : List Char) (p : Position) (after : List Segment) :
    Prop where
  position : t.position = p
  ne_nil : w ≠ []
  inLine : Text.InLine w (after.flatMap Segment.chars)
  lexeme : t.kind.isText = false → w = t.lexeme.toList
  next : t.kind.isText = true → ∃ y ∈ after.head?, y.HasKind [.interpOpen, .strClose]

/-- The segment is what it should be at `p`, in front of the segments `after`. -/
def Segment.Fits (p : Position) (after : List Segment) : Segment → Prop
  | token t w => t.Stands w p after
  | x => x.Skips (after.flatMap chars)

def StartsWithText (segments : List Segment) : Prop := ∃ x ∈ segments.head?, x.IsText

theorem startsWithText_cons {x : Segment} {segments : List Segment} :
    StartsWithText (x :: segments) ↔ x.IsText := by
  simp [StartsWithText]

def Tiled : Position → List Segment → Prop
  | _, [] => True
  | p, x :: after =>
    x.Fits p after ∧ (StartsWithText after → x.HasKind [.strOpen, .interpClose]) ∧
      Tiled (p.after x.chars) after

namespace Tiled

theorem split {p : Position} {before after : List Segment} {x : Segment}
    (h : Tiled p (before ++ x :: after)) :
    x.Fits (p.after (before.flatMap Segment.chars)) after ∧
      (StartsWithText after → x.HasKind [.strOpen, .interpClose]) := by
  induction before generalizing p with
  | nil => exact ⟨h.1, h.2.1⟩
  | cons y before ih =>
    rw [List.flatMap_cons, Position.after_append]
    exact ih h.2.2

theorem le_of_mem {p : Position} {segments : List Segment} (h : Tiled p segments) {t : Token}
    {w : List Char} (ht : .token t w ∈ segments) : p ≤ t.position := by
  obtain ⟨before, after, rfl⟩ := List.append_of_mem ht
  rw [h.split.1.position]
  exact p.le_after _

theorem disjoint {p : Position} {segments : List Segment} (h : Tiled p segments) :
    segments.Pairwise fun x y => ∀ t w u v, x = .token t w → y = .token u v →
      t.position.right w.length ≤ u.position := by
  induction segments generalizing p with
  | nil => exact .nil
  | cons x after ih =>
    refine .cons ?_ (ih h.2.2)
    rintro y hy t w u v rfl rfl
    obtain ⟨hstands, -, hafter⟩ := h
    rw [hstands.position, ← Position.after_of_notMem hstands.inLine.1]
    exact hafter.le_of_mem hy

theorem increasing {p : Position} {segments : List Segment} (h : Tiled p segments) :
    (segments.filterMap Segment.token?).Pairwise (·.position < ·.position) := by
  rw [List.pairwise_filterMap]
  refine h.disjoint.imp_of_mem ?_
  intro x y hx hy hdisjoint t ht u hu
  obtain ⟨before, after, rfl⟩ := List.append_of_mem hx
  cases x with
  | token t w =>
    cases y with
    | token u v =>
      cases ht
      cases hu
      -- A token is at least one character wide, so the next one is at a later place.
      have hwidth := List.length_pos_iff.2 h.split.1.ne_nil
      exact Position.lt_of_right_le hwidth (hdisjoint t w u v rfl rfl)
    | _ => cases hu
  | _ => cases ht

theorem text_between {p : Position} {segments : List Segment} (h : Tiled p segments)
    (hstart : ¬ StartsWithText segments) {before after : List Segment} {x : Segment}
    (hsplit : segments = before ++ x :: after) (hx : x.IsText) :
    (∃ y ∈ before.getLast?, y.HasKind [.strOpen, .interpClose]) ∧
      ∃ y ∈ after.head?, y.HasKind [.interpOpen, .strClose] := by
  subst hsplit
  constructor
  · rcases List.eq_nil_or_concat before with rfl | ⟨before, y, rfl⟩
    · exact absurd (startsWithText_cons.2 hx) hstart
    · rw [List.concat_eq_append, List.append_assoc] at h
      exact ⟨y, by simp, h.split.2 (startsWithText_cons.2 hx)⟩
  · cases x with
    | token t w => exact h.split.1.next hx
    | _ => cases hx

theorem tiles {segments : List Segment} (h : Tiled .start segments)
    (hstart : ¬ StartsWithText segments) :
    Tiles (segments.flatMap Segment.chars) segments where
  covers := rfl
  increasing := h.increasing
  disjoint := h.disjoint
  placed := by
    rintro before t w after rfl
    have hstands := h.split.1
    refine ⟨hstands.position, hstands.ne_nil, ?_⟩
    rw [hstands.position, List.flatMap_append, (Text.linesFrom_start _).append.restOfLine]
    exact hstands.inLine.begins_line
  lexemes := by
    intro t w ht htext
    obtain ⟨before, after, rfl⟩ := List.append_of_mem ht
    exact h.split.1.lexeme htext
  texts _ _ _ := h.text_between hstart
  skipped := by
    rintro before x after rfl hx
    cases x with
    | token t w => cases hx
    | _ => exact h.split.1

end Tiled

/-! ## 5. Steps and runs

A block comment may go over several lines, so a step that starts one has no segment until the step
that ends it; `Tileable` says what is known in between. -/

namespace Scan

/-- The segments of a source from `p` on and their tokens.  In code no text comes first. -/
structure Cut (p : Position) (modes : List Mode) (source : List Char) (tokens : List Token)
    (segments : List Segment) : Prop where
  chars : segments.flatMap Segment.chars = source
  tokens : segments.filterMap Segment.token? = tokens
  tiled : Tiled p segments
  code : InCode modes → ¬ StartsWithText segments

theorem cut_nil (p : Position) (modes : List Mode) : Cut p modes [] [] [] :=
  ⟨rfl, rfl, trivial, fun _ => by simp [StartsWithText]⟩

theorem Cut.skip {p : Position} {modes : List Mode} {source : List Char} {tokens : List Token}
    {segments : List Segment} {x : Segment} (h : Cut (p.after x.chars) modes source tokens segments)
    (hcode : InCode modes) (hx : x.Skips source) :
    Cut p modes (x.chars ++ source) tokens (x :: segments) := by
  obtain ⟨rfl, rfl, htiled, htext⟩ := h
  have hfits : x.Fits p segments ∧ x.token? = none ∧ ¬ x.IsText := by
    cases x with
    | token t w => exact hx.elim
    | _ => exact ⟨hx, rfl, id⟩
  obtain ⟨hfits, hnone, hnotText⟩ := hfits
  refine ⟨rfl, List.filterMap_cons_none hnone, ⟨hfits, fun h => absurd h (htext hcode), htiled⟩, ?_⟩
  exact fun _ h => hnotText (startsWithText_cons.1 h)

theorem Cut.token {p : Position} {modes modes' : List Mode} {source w : List Char}
    {tokens : List Token} {segments : List Segment} {kind : TokenKind}
    (h : Cut (p.right w.length) modes' source tokens segments) (hw : w ≠ [])
    (hline : Text.InLine w source) (hkind : kind.isText = false)
    (hnext : InCode modes' ∨ kind ∈ [.strOpen, .interpClose]) :
    Cut p modes (w ++ source) (token kind w p :: tokens)
      (.token (token kind w p) w :: segments) := by
  obtain ⟨rfl, rfl, htiled, htext⟩ := h
  rw [← Position.after_of_notMem hline.1] at htiled
  refine ⟨rfl, rfl, ⟨⟨rfl, hw, hline, fun _ => by simp [Scan.token], ?_⟩, ?_, htiled⟩, ?_⟩
  · intro htrue
    simp [Scan.token, hkind] at htrue
  · intro hstarts
    exact hnext.resolve_left fun hcode => htext hcode hstarts
  · simp [startsWithText_cons, Segment.IsText, Scan.token, hkind]

/-- Text, if there is any, stands right in front of the mark that ends it. -/
theorem Cut.text {p : Position} {opened : Nat} {outer modes : List Mode}
    {text w source : List Char} {c : Char} {kind : TokenKind} {tokens : List Token}
    {segments : List Segment} (h : Cut (p.right (w ++ [c]).length) modes source tokens segments)
    (hcode : InCode modes) (hw : Written text w) (hnewline : '\n' ∉ w ++ [c]) (hreturn : c ≠ '\r')
    (hkind : kind ∈ [.interpOpen, .strClose]) :
    ∃ segments', Cut p (.text opened :: outer) (w ++ [c] ++ source)
      (textToken text p ++ [Scan.token kind [c] (p.right w.length)] ++ tokens) segments' := by
  obtain ⟨hnewline, hc⟩ := not_or.1 (mt List.mem_append.2 hnewline)
  have hnotText : kind.isText = false := by
    simp only [List.mem_cons, List.not_mem_nil, or_false] at hkind
    rcases hkind with rfl | rfl <;> rfl
  let mark := Scan.token kind [c] (p.right w.length)
  rw [Position.right_length_append_mark] at h
  have hmark : Cut (p.right w.length) (.text opened :: outer) (c :: source) (mark :: tokens)
      (.token mark [c] :: segments) :=
    h.token (List.cons_ne_nil c [])
      (Text.inLine_of_notMem hc (by simpa using Ne.symm hreturn) source) hnotText (.inl hcode)
  rw [List.append_assoc, List.append_assoc]
  cases text with
  -- There is no token for an empty text.
  | nil =>
    cases hw
    exact ⟨_, hmark⟩
  | cons d text =>
    obtain ⟨hchars, htokens, htiled, -⟩ := hmark
    rw [← Position.after_of_notMem hnewline] at htiled
    have hne : w ≠ [] := by
      rintro rfl
      cases hw
    have hline : Text.InLine w (c :: source) := ⟨hnewline, fun _ => by simpa [eq_comm] using hc⟩
    let first := Scan.token (.strText (String.ofList (d :: text))) (d :: text) p
    refine ⟨.token first w :: .token mark [c] :: segments, ?_, ?_, ?_, fun h => h.elim⟩
    · exact congrArg (w ++ ·) hchars
    · exact congrArg (first :: ·) htokens
    · refine ⟨⟨rfl, hne, hchars ▸ hline, ?_, fun _ => ⟨_, rfl, hkind⟩⟩, ?_, htiled⟩
      · simp [first, Scan.token, TokenKind.isText]
      · simp [startsWithText_cons, Segment.IsText, mark, Scan.token, hnotText]

/-- The source from `p` on can be cut, behind the end of the comment that may be open. -/
def Tileable (p : Position) (source : List Char) (tokens : List Token) : State → Prop
  | ⟨modes, false⟩ => ∃ segments, Cut p modes source tokens segments
  | ⟨modes, true⟩ =>
    (∃ body rest segments, source = body ++ '*' :: '/' :: rest ∧ Unclosed (body ++ ['*']) ∧
      Cut (p.after (body ++ ['*', '/'])) modes rest tokens segments) ∨
    Unclosed source ∧ tokens = []

theorem EndsLine.head?_ne {cs : List Char} (h : EndsLine cs) : cs.head? ≠ some '/' := by
  rcases h with rfl | ⟨ending, rest, rfl | rfl, rfl⟩ <;> simp

/-- An open comment goes on over more characters. -/
theorem Tileable.comment {p : Position} {modes : List Mode} {cs source : List Char}
    {tokens : List Token} (h : Tileable (p.after cs) source tokens ⟨modes, true⟩)
    (hcs : Unclosed cs) (hjoin : cs.getLast? = some '*' → source.head? ≠ some '/') :
    Tileable p (cs ++ source) tokens ⟨modes, true⟩ := by
  rcases h with ⟨body, rest, segments, rfl, hbody, hcut⟩ | ⟨hopen, rfl⟩
  · refine .inl ⟨cs ++ body, rest, segments, by simp, ?_, ?_⟩
    · rw [List.append_assoc]
      -- what follows `cs` begins like `source`, or with the star that ends the comment
      refine hcs.append hbody fun hlast => ?_
      cases body with
      | nil => simp
      | cons c body => exact hjoin hlast
    · rw [List.append_assoc, Position.after_append]
      exact hcut
  · exact .inr ⟨hcs.append hopen hjoin, rfl⟩

theorem Tileable.newline {p : Position} {b : Bool} {ending source : List Char} {tokens : List Token}
    (h : Tileable ⟨p.line + 1, 1⟩ source tokens ⟨[], b⟩) (hending : LineEnding ending) :
    Tileable p (ending ++ source) tokens ⟨[], b⟩ := by
  cases b with
  | false =>
    obtain ⟨segments, hcut⟩ := h
    rcases hending with rfl | rfl
    · exact ⟨_, hcut.skip (x := .blank '\n') trivial rfl⟩
    · have hnewline := Cut.skip (p := p.right 1) (x := .blank '\n') hcut trivial rfl
      exact ⟨_, hnewline.skip (x := .blank '\r') trivial rfl⟩
  | true =>
    have hafter : p.after ending = ⟨p.line + 1, 1⟩ := by rcases hending with rfl | rfl <;> rfl
    refine Tileable.comment (hafter ▸ h) ?_ ?_
    · rcases hending with rfl | rfl <;> simp [unclosed_cons, unclosed_nil]
    · rcases hending with rfl | rfl <;> simp

/-- A step puts its segments in front of those behind it. -/
theorem Reads.tileable {p : Position} {s s' : State} {taken rest tail : List Char}
    {tokens more : List Token} (h : Reads p s taken rest tokens s') (hs : Nested s.modes)
    (htaken : '\n' ∉ taken) (htail : EndsLine tail)
    (hmore : Tileable (p.right taken.length) (rest ++ tail) more s') :
    Tileable p (taken ++ (rest ++ tail)) (tokens ++ more) s := by
  have hafter := Position.after_of_notMem (p := p) htaken
  cases h with
  | commentEnd hbody =>
    obtain ⟨segments, hcut⟩ := hmore
    exact .inl ⟨_, _, segments, by simp, hbody, hafter ▸ hcut⟩
  | commentLine _ hopen =>
    rw [← hafter] at hmore
    exact hmore.comment hopen fun _ => htail.head?_ne
  | @blank _ c _ hcode hblank =>
    obtain ⟨segments, hcut⟩ := hmore
    rw [← hafter] at hcut
    exact ⟨_, hcut.skip (x := .blank c) hcode hblank⟩
  | @lineComment _ body hcode =>
    obtain ⟨segments, hcut⟩ := hmore
    rw [← hafter] at hcut
    exact ⟨_, hcut.skip (x := .lineComment body) hcode ⟨by simpa using htaken, htail⟩⟩
  | commentStart hcode =>
    -- the comment ends somewhere behind this step, maybe lines further on, or not at all
    rcases hmore with ⟨body, rest', segments, hrest, hbody, hcut⟩ | ⟨hopen, rfl⟩
    · rw [← hafter, ← Position.after_append] at hcut
      refine ⟨.blockComment body :: segments, ?_⟩
      have hskip := hcut.skip (x := .blockComment body) hcode hbody
      simpa [hrest, Segment.chars] using hskip
    · refine ⟨[.openComment (rest ++ tail)], ?_⟩
      have hskip := (cut_nil _ _).skip (p := p) (x := .openComment (rest ++ tail)) hcode
        ⟨hopen, rfl⟩
      simpa [Segment.chars] using hskip
  | lexeme hcode hlexeme =>
    obtain ⟨segments, hcut⟩ := hmore
    have hreturn : '\r' ∉ taken := fun h => absurd (hlexeme.isBlank_eq_false _ h) (by decide)
    exact ⟨_, hcut.token hlexeme.ne_nil (Text.inLine_of_notMem htaken hreturn _)
      (TokenKind.isText_of_isPlain hlexeme.isPlain.1) (.inl hcode)⟩
  | @brace _ _ c _ _ hbrace =>
    obtain ⟨segments, hcut⟩ := hmore
    have hreturn : '\r' ∉ [c] := by cases hbrace <;> decide
    have hline := Text.inLine_of_notMem htaken hreturn (rest ++ tail)
    rcases hbrace.cases_after with rfl | ⟨hplain, hcode⟩
    · exact ⟨_, hcut.token (List.cons_ne_nil c []) hline rfl (.inr (by simp))⟩
    · exact ⟨_, hcut.token (List.cons_ne_nil c []) hline (TokenKind.isText_of_isPlain hplain)
        (.inl hcode)⟩
  | strOpen hcode =>
    obtain ⟨segments, hcut⟩ := hmore
    exact ⟨_, hcut.token (List.cons_ne_nil _ []) (Text.inLine_of_notMem htaken (by decide) _) rfl
      (.inr (by simp))⟩
  | strClose hw =>
    obtain ⟨segments, hcut⟩ := hmore
    rcases hs with _ | ⟨hcode, -⟩
    exact hcut.text hcode hw htaken (by decide) (by simp)
  | interpOpen hw _ =>
    obtain ⟨segments, hcut⟩ := hmore
    exact hcut.text trivial hw htaken (by decide) (by simp)

theorem linesFrom_tileable {n : Nat} {b : Bool} {source : List Char} {lines : List (List Char)}
    {tokens : List Token} (hsource : SplitsInto source lines)
    (h : linesFrom n b lines = .ok tokens) :
    Tileable ⟨n, 1⟩ source tokens ⟨[], b⟩ := by
  refine linesFrom_induction (P := fun p s source tokens => Tileable p source tokens s)
    ?_ ?_ ?_ hsource h
  · intro p b
    cases b with
    | false => exact ⟨[], cut_nil p []⟩
    | true => exact .inr ⟨unclosed_nil, rfl⟩
  · intro p b ending source tokens hending h
    exact h.newline hending
  · intro p s taken rest tail tokens s' more hs htaken htail hreads h
    exact hreads.tileable hs htaken htail h

end Scan

/-- Every source that scans is cut into the characters of its tokens, blanks and comments.  The
tokens stand where they say, in order and without overlap; all but the text of string literals are
read from their lexemes, and such text fills the place between the marks around it. -/
theorem tokens_tile_source {source : String} {tokens : List Token}
    (h : Token.scan source = .ok tokens) :
    ∃ segments last, tokens = segments.filterMap Segment.token? ++ [last] ∧ last.kind = .eof ∧
      Tiles source.toList segments := by
  obtain ⟨body, hbody, rfl⟩ := Scan.scan_eq_ok h
  obtain ⟨segments, hchars, rfl, htiled, hcode⟩ :=
    Scan.linesFrom_tileable (Scan.splitsInto_lines source.toList) hbody
  rw [← hchars]
  exact ⟨segments, _, rfl, rfl, htiled.tiles (hcode trivial)⟩

theorem nestedSource_tiled :
    Token.scan Scan.nestedSource = .ok Scan.nestedTokens ∧
    ∃ segments last, Scan.nestedTokens = segments.filterMap Segment.token? ++ [last] ∧
      last.kind = .eof ∧ Tiles Scan.nestedSource.toList segments :=
  ⟨Scan.scan_nestedSource, tokens_tile_source Scan.scan_nestedSource⟩

end Scriptlet
