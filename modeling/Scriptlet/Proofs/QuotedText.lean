import Mathlib.Data.List.Forall2
import Scriptlet.Proofs.CacheTransparency
import Scriptlet.Proofs.GroundedReadings
import Scriptlet.Proofs.ScanSteps
import Scriptlet.SampleHost

/-!
# Texts between quotes

A host that puts a text into a source writes its characters between quotes, with a backslash or
doubled where the language gives them a meaning.  Some characters can be written in two ways, and
the host may choose anew for each of them.  Whatever it chooses, the scanner reads one stretch of
text, the parser a plain literal, and the run gives back the text.

Quotes, escapes and doubled braces are those of §4.1 of the specification; that a raw line break
ends a literal is decided in its §10.7.
-/

namespace Scriptlet
namespace Scan

/-! ## 1. Spellings

A raw line break is no spelling, since literals end with their line. -/

/-- The ways in which a character of a text is written between quotes. -/
def spellings : Char → List (List Char)
  | '"' => [['\\', '"']]
  | '\\' => [['\\', '\\']]
  | '\n' => [['\\', 'n']]
  | '{' => [['\\', '{'], ['{', '{']]
  | '}' => [['\\', '}'], ['}', '}']]
  | '\t' => [['\\', 't'], ['\t']]
  | '\r' => [['\\', 'r'], ['\r']]
  | '\x00' => [['\\', '0'], ['\x00']]
  | c => [[c]]

/-- The source is a text between quotes, each of its characters in one of its spellings. -/
def Quotes (text source : String) : Prop :=
  ∃ pieces, List.Forall₂ (fun c piece => piece ∈ spellings c) text.toList pieces ∧
    source.toList = '"' :: (pieces.flatten ++ ['"'])

/-- A spelling is an escape, a doubled brace, or the character itself if it has no meaning of its
own. -/
theorem cases_of_mem_spellings {c : Char} {piece : List Char} (h : piece ∈ spellings c) :
    (∃ e, piece = ['\\', e] ∧ e ≠ '\n' ∧ unescape e = some c) ∨
    (piece = [c, c] ∧ (c = '{' ∨ c = '}')) ∨
    (piece = [c] ∧ c ∉ ['"', '\\', '\n', '{', '}']) := by
  rw [spellings.eq_def] at h
  split at h
  case h_1 | h_2 | h_3 =>
    obtain rfl := List.mem_singleton.1 h
    exact .inl ⟨_, rfl, by decide, rfl⟩
  case h_4 | h_5 =>
    rcases List.mem_pair.1 h with rfl | rfl
    · exact .inl ⟨_, rfl, by decide, rfl⟩
    · exact .inr (.inl ⟨rfl, by decide⟩)
  case h_6 | h_7 | h_8 =>
    rcases List.mem_pair.1 h with rfl | rfl
    · exact .inl ⟨_, rfl, by decide, rfl⟩
    · exact .inr (.inr ⟨rfl, by decide⟩)
  case h_9 hquote hbackslash hnewline hopen hclose _ _ _ =>
    refine .inr (.inr ⟨List.mem_singleton.1 h, ?_⟩)
    simp only [List.mem_cons, List.not_mem_nil, or_false, not_or]
    exact ⟨hquote, hbackslash, hnewline, hopen, hclose⟩

theorem newline_notMem_of_mem_spellings {c : Char} {piece : List Char} (h : piece ∈ spellings c) :
    '\n' ∉ piece := by
  rcases cases_of_mem_spellings h with ⟨e, rfl, he, -⟩ | ⟨rfl, rfl | rfl⟩ | ⟨rfl, hc⟩
  · simp [he.symm]
  · decide
  · decide
  · rintro (_ | ⟨_, hnil⟩)
    · exact hc (by decide)
    · cases hnil

theorem written_append {c : Char} {piece text w : List Char} (h : piece ∈ spellings c)
    (hw : Written text w) :
    Written (c :: text) (piece ++ w) := by
  rcases cases_of_mem_spellings h with ⟨e, rfl, -, he⟩ | ⟨rfl, hbrace⟩ | ⟨rfl, hc⟩
  · exact .escaped he hw
  · exact .doubled hbrace hw
  · simp only [List.mem_cons, List.not_mem_nil, or_false, not_or] at hc
    obtain ⟨hquote, hbackslash, -, hopen, hclose⟩ := hc
    exact .plain hquote hbackslash hopen (fun h => absurd h hclose) hw

theorem written_flatten {text : List Char} {pieces : List (List Char)}
    (h : List.Forall₂ (fun c piece => piece ∈ spellings c) text pieces) :
    Written text pieces.flatten ∧ '\n' ∉ pieces.flatten := by
  induction h with
  | nil => exact ⟨.nil, List.not_mem_nil⟩
  | cons hpiece _ ih =>
    rw [List.flatten_cons]
    refine ⟨written_append hpiece ih.1, ?_⟩
    rw [List.mem_append, not_or]
    exact ⟨newline_notMem_of_mem_spellings hpiece, ih.2⟩

/-- Every character has a spelling. -/
theorem exists_quotes (text : String) : ∃ source, Quotes text source := by
  have hpiece : ∀ c, ∃ piece, piece ∈ spellings c := by
    intro c
    rw [spellings.eq_def]
    split <;> exact ⟨_, List.mem_cons_self⟩
  choose piece hpiece using hpiece
  have hpieces : List.Forall₂ (fun c p => p ∈ spellings c) text.toList (text.toList.map piece) :=
    List.forall₂_map_right_iff.2 (List.forall₂_same.2 fun c _ => hpiece c)
  exact ⟨String.ofList ('"' :: ((text.toList.map piece).flatten ++ ['"'])), _, hpieces,
    String.toList_ofList⟩

/-! ## 2. Scanning and parsing -/

/-- A quoted text is one line of the source. -/
theorem lines_of_newline_notMem {cs : List Char} (hne : cs ≠ []) (h : '\n' ∉ cs) :
    Text.lines cs = [cs] := by
  have hsplits := splitsInto_lines cs
  generalize Text.lines cs = lines at hsplits
  cases hsplits with
  | nil => exact absurd rfl hne
  | last _ _ => rfl
  | line _ hending _ =>
    rcases hending with rfl | rfl
    · exact absurd (by simp) h
    · exact absurd (by simp) h

def literalTokens (text : List Char) (width : Nat) : List Token :=
  token .strOpen ['"'] .start :: (textToken text ⟨1, 2⟩ ++
    [token .strClose ['"'] (Position.right ⟨1, 2⟩ width), ⟨.eof, "", ⟨1, width + 3⟩⟩])

theorem line_quoted {text w : List Char} (hw : Written text w) :
    line .start ⟨[], false⟩ (['"'] ++ (w ++ ['"'])) =
      .ok (token .strOpen ['"'] .start :: (textToken text ⟨1, 2⟩ ++
        [token .strClose ['"'] (Position.right ⟨1, 2⟩ w.length)]), false) := by
  have hopen : Reads .start ⟨[], false⟩ ['"'] (w ++ ['"']) [token .strOpen ['"'] .start]
      ⟨[.text 1], false⟩ :=
    .strOpen trivial
  have hclose : Reads ⟨1, 2⟩ ⟨[.text 1], false⟩ (w ++ ['"']) []
      (textToken text ⟨1, 2⟩ ++ [token .strClose ['"'] (Position.right ⟨1, 2⟩ w.length)])
      ⟨[], false⟩ :=
    .strClose hw
  have hend : line (Position.right ⟨1, 2⟩ (w ++ ['"']).length) ⟨[], false⟩ [] =
      .ok ([], false) := by
    rw [line]
    rfl
  have htext := line_of_reads hclose
  rw [List.append_nil, hend] at htext
  refine (line_of_reads hopen).trans ?_
  have hright : Position.start.right ['"'].length = ⟨1, 2⟩ := rfl
  rw [hright, htext]
  simp [bind, Except.bind, pure, Except.pure]

theorem scan_quoted {source : String} {text w : List Char}
    (hsource : source.toList = '"' :: (w ++ ['"'])) (hw : Written text w) (hline : '\n' ∉ w) :
    Token.scan source = .ok (literalTokens text w.length) := by
  have hlines : Text.lines source.toList = [['"'] ++ (w ++ ['"'])] := by
    rw [hsource]
    apply lines_of_newline_notMem (List.cons_ne_nil _ _)
    simp [hline]
  have htokens := line_quoted hw
  unfold Position.start at htokens
  simp only [Token.scan, hlines, linesFrom, htokens, bind, Except.bind, pure, Except.pure]
  simp [literalTokens, endPosition, Position.start]

theorem literal_text (t : String) (p : Position) : Part.literal [.text t] p = .str t p := by
  have hjoin : String.join [t] = t := by simp [String.join]
  exact congrArg (Expr.str · p) hjoin

/-- Without embedded expressions the literal is a constant; an empty one has no stretch of text at
all. -/
theorem parse_literalTokens (text : List Char) (width : Nat) :
    ∃ d, Program.parse (literalTokens text width) =
      .ok [.expr (.str (String.ofList text) .start)] d := by
  cases text with
  | nil => exact ⟨_, rfl⟩
  | cons c text =>
    rw [← literal_text]
    exact ⟨_, rfl⟩

end Scan

/-! ## 3. Runs -/

theorem Store.copy_str (σ : Store) (fuel : Nat) (s : String) :
    σ.copy (fuel + 1) (.str s) = some (.str s, σ) := by
  have hsame : { σ with arrays := σ.arrays ++ #[] } = σ := by rw [Array.append_empty]
  exact congrArg (fun τ => some (Value.str s, τ)) hsame

/-- Every hook can be told about a text. -/
theorem Hook.exists_onResult_str (σ : Store) (fuel : Nat) (s : String) (hook : Hook) :
    ∃ notices, hook.onResult (fuel + 1) σ (.str s) = some notices := by
  cases hook with
  | bool =>
    have hresolve : σ.resolve (fuel + 1) (.str s) = some (.str s) := rfl
    simp only [onResult, Store.toBool, hresolve, Option.bind_eq_bind, Option.bind_some]
    split <;> exact ⟨_, rfl⟩
  | _ => exact ⟨_, rfl⟩

namespace Interpreter

variable {i : Interpreter} {source : String}

/-- Whatever an interpreter keeps, it reads the program of the source. -/
theorem Coherent.exists_parse (h : i.Coherent) {program : Program}
    (hread : Program.read? source = some (.ok program)) :
    ∃ tree j, i.parse source = some (.ok tree, j) ∧ tree.content = program := by
  have hcontent := (h.parse_content source).trans hread
  obtain ⟨⟨result, j⟩, hparse, hresult⟩ := Option.map_eq_some_iff.1 hcontent
  cases result with
  | error e => cases hresult
  | ok tree => exact ⟨tree, j, hparse, Except.ok.inj hresult⟩

/-- Every text can be written between quotes.  In whichever spellings it is, it runs to that text in
every environment, and leaves the store as it is. -/
theorem any_text_can_be_quoted [Host] (text : String) :
    (∃ source, Scan.Quotes text source) ∧
    ∀ source, Scan.Quotes text source → ∀ i : Interpreter, i.InUse →
    ∀ (env : Env) (σ : Store) (fuel : Nat), 2 ≤ fuel →
      ∃ notices j, i.runIn fuel env source σ = some ⟨.ok (.str text), notices, j, σ⟩ := by
  refine ⟨Scan.exists_quotes text, ?_⟩
  intro source hsource i hi env σ fuel hfuel
  obtain ⟨n, rfl⟩ := Nat.exists_eq_add_of_le' hfuel
  obtain ⟨pieces, hpieces, hquoted⟩ := hsource
  -- The scanner and the parser see one literal, whatever is chosen for its characters.
  obtain ⟨hwritten, hline⟩ := Scan.written_flatten hpieces
  have hscan := Scan.scan_quoted hquoted hwritten hline
  obtain ⟨d, hparsed⟩ := Scan.parse_literalTokens text.toList pieces.flatten.length
  have hread : Program.read? source = some (.ok [.expr (.str text .start)]) := by
    simp only [Program.read?, hscan, hparsed, String.ofList_toList]
  obtain ⟨tree, j, hparse, htree⟩ := hi.coherent.exists_parse hread
  have hexec : Eval.execProgram (n + 2) env tree.content σ = .done (.str text) σ := by
    rw [htree]
    rfl
  obtain ⟨notices, hnotices⟩ :
      ∃ notices, j.hooks.mapM (Hook.onResult (n + 2) σ (.str text)) = some notices :=
    Walk.exists_mapM fun hook _ => hook.exists_onResult_str σ (n + 1) text
  refine ⟨notices.flatten, j, ?_⟩
  simp only [runIn, hparse, hexec, reportResult, Store.copy_str, hnotices, Option.bind_eq_bind,
    Option.bind_some]
  rfl

/-- Two braces, one escaped and one doubled, around a quote and a raw tab. -/
theorem braces_are_quoted :
    Scan.Quotes "\x7b\"\t\x7d" "\"\\\x7b\\\"\t\x7d\x7d\"" ∧
    ∃ notices j, (ofEnv ⟨⟨0⟩, []⟩).runIn 2 ⟨⟨0⟩, []⟩ "\"\\\x7b\\\"\t\x7d\x7d\"" ⟨#[], #[], #[]⟩ =
      some ⟨.ok (.str "\x7b\"\t\x7d"), notices, j, ⟨#[], #[], #[]⟩⟩ := by
  have hpieces : List.Forall₂ (fun c piece => piece ∈ Scan.spellings c) "\x7b\"\t\x7d".toList
      [['\\', '{'], ['\\', '"'], ['\t'], ['}', '}']] :=
    .cons (by decide) (.cons (by decide) (.cons (by decide) (.cons (by decide) .nil)))
  have hquotes : Scan.Quotes "\x7b\"\t\x7d" "\"\\\x7b\\\"\t\x7d\x7d\"" := ⟨_, hpieces, by decide⟩
  exact ⟨hquotes, (any_text_can_be_quoted _).2 _ hquotes _ (.ofEnv _) _ _ 2 (by decide)⟩

end Interpreter
end Scriptlet
