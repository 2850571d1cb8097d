import Mathlib.Data.Nat.ModEq
import PromptOutline.Proofs.Places
import PromptOutline.Proofs.PlainOutline

/-!
# Lines further right

Marks depend on the distance between a line and the margin, and texts are cut relative to the
margin. So lines that all stand further right by one distance give the same tokens, up to places,
from a margin that stands further right by that distance. A keyword line leaves a margin that does
not depend on the lines before it, which is where readings with different pasts meet again.
-/

namespace PromptOutline.Outline

/-- A line further right. -/
def indented (n : Nat) (line : List Char) : List Char := List.replicate n ' ' ++ line

/-- A margin further right. -/
def Margin.indented (n : Nat) (m : Margin) : Margin := { m with column := m.column + n }

/-- The second reading gives the tokens of the first one, up to places, and leaves its margin
further right. -/
structure Indented (n : Nat) (r r' : Margin × List Token) : Prop where
  margin : r'.1 = r.1.indented n
  tokens : r.2.map Token.bare = r'.2.map Token.bare

/-! ### Shifts -/

/-- A shift without places. -/
def Shift.bare : Shift → Shift
  | .moved marks => .moved (marks.map Token.bare)
  | .rejected mark => .rejected mark.bare

/-- Moving the margin and a line by the same number of columns gives the same marks, places aside.
-/
theorem bare_shift (unit : Int) (margin n : Nat) (p q : Place) (column : Nat) :
    (shift unit margin p column).bare = (shift unit (margin + n) q (column + n)).bare := by
  have hoffset : ((column + n : Nat) : Int) - ((margin + n : Nat) : Int) =
      (column : Int) - margin := by omega
  simp only [shift, hoffset]
  split
  · rfl
  · split
    · split <;> rfl
    · split <;> simp [Shift.bare, Place.token, Token.bare]

/-- Both shifts are rejected with the same mark, or both move with the same marks. -/
theorem shift_cases (unit : Int) (margin n : Nat) (p q : Place) (column : Nat) :
    (∃ mark mark', shift unit margin p column = .rejected mark ∧
        shift unit (margin + n) q (column + n) = .rejected mark' ∧ mark.bare = mark'.bare) ∨
      ∃ marks marks', shift unit margin p column = .moved marks ∧
        shift unit (margin + n) q (column + n) = .moved marks' ∧
        marks.map Token.bare = marks'.map Token.bare := by
  have hbare := bare_shift unit margin n p q column
  cases hp : shift unit margin p column with
  | rejected mark =>
    cases hq : shift unit (margin + n) q (column + n) with
    | rejected mark' =>
      rw [hp, hq] at hbare
      exact .inl ⟨mark, mark', rfl, rfl, Shift.rejected.inj hbare⟩
    | moved marks' => rw [hp, hq] at hbare; cases hbare
  | moved marks =>
    cases hq : shift unit (margin + n) q (column + n) with
    | rejected mark' => rw [hp, hq] at hbare; cases hbare
    | moved marks' =>
      rw [hp, hq] at hbare
      exact .inr ⟨marks, marks', rfl, rfl, Shift.moved.inj hbare⟩

/-! ### Lines -/

private theorem bare_keywordTokens (p q : Place) (column column' : Nat) (kind : TokenKind)
    (word rest : List Char) :
    (keywordTokens p column kind word rest).map Token.bare =
      (keywordTokens q column' kind word rest).map Token.bare := by
  unfold keywordTokens
  split <;> rfl

private theorem indented_readKeyword (unit : Int) (n : Nat) (m : Margin) (p q : Place)
    (column : Nat)
    (kind : TokenKind) (word rest : List Char) :
    Indented n (readKeyword unit m p column kind word rest)
      (readKeyword unit (m.indented n) q (column + n) kind word rest) := by
  rcases shift_cases unit m.column n p q column with
    ⟨mark, mark', hp, hq, hmark⟩ | ⟨marks, marks', hp, hq, hmarks⟩
  · simp only [readKeyword, hp, Margin.indented, hq]
    exact ⟨rfl, by simp [hmark]⟩
  · simp only [readKeyword, hp, Margin.indented, hq]
    refine ⟨rfl, ?_⟩
    rw [List.map_append, List.map_append, hmarks, bare_keywordTokens]

private theorem bare_textToken {n column : Nat} {p q : Place} (hline : q.line = indented n p.line)
    (hcolumn : 1 ≤ column) : (textToken p column).bare = (textToken q (column + n)).bare := by
  have hdrop : q.line.drop (column + n - 1) = p.line.drop (column - 1) := by
    rw [hline, indented, Nat.add_comm column n, Nat.add_sub_assoc hcolumn, List.drop_append]
    simp
  rw [textToken, textToken, hdrop]
  rfl

private theorem indented_readText {unit : Int} {n column : Nat} {m : Margin} {p q : Place}
    (hline : q.line = indented n p.line) (hm : 1 ≤ m.column) (hcolumn : 1 ≤ column) :
    Indented n (readText unit m p column) (readText unit (m.indented n) q (column + n)) := by
  have hclamp : ((m.indented n).inText && decide ((m.indented n).column < column + n)) =
      (m.inText && decide (m.column < column)) := by simp [Margin.indented]
  unfold readText
  rw [hclamp]
  split
  · exact ⟨rfl, congrArg ([·]) (bare_textToken hline hm)⟩
  · rcases shift_cases unit m.column n p q column with
      ⟨mark, mark', hp, hq, hmark⟩ | ⟨marks, marks', hp, hq, hmarks⟩
    · simp only [hp, Margin.indented, hq]
      exact ⟨rfl, by simp [hmark]⟩
    · simp only [hp, Margin.indented, hq]
      refine ⟨rfl, ?_⟩
      rw [List.map_append, List.map_append, hmarks, List.map_singleton, List.map_singleton,
        bare_textToken hline hcolumn]

private theorem indented_readContent (unit : Int) {n column : Nat} {m : Margin} {p q : Place}
    (hline : q.line = indented n p.line) (hm : 1 ≤ m.column) (hcolumn : 1 ≤ column)
    (content : List Char) :
    Indented n (readContent unit m p column content)
      (readContent unit (m.indented n) q (column + n) content) := by
  simp only [readContent]
  split
  · exact indented_readKeyword ..
  · exact indented_readText hline hm hcolumn

private theorem indented_readLine (unit : Int) {n : Nat} {m : Margin} {p q : Place}
    (hline : q.line = indented n p.line) (hm : 1 ≤ m.column) :
    Indented n (readLine unit m p) (readLine unit (m.indented n) q) := by
  have hcontent : q.line.dropWhile (· == ' ') = p.line.dropWhile (· == ' ') := by
    rw [hline]
    exact lineContent_spaces n p.line
  have hcolumn : (q.line.takeWhile (· == ' ')).length + 1 =
      (p.line.takeWhile (· == ' ')).length + 1 + n := by
    rw [hline, Nat.add_comm _ n]
    exact startColumn_spaces n p.line
  have hread := indented_readContent unit hline hm (startColumn_pos p.line)
  simp only [readLine, hcontent, hcolumn]
  split
  · refine ⟨rfl, ?_⟩
    rw [show (m.indented n).inText = m.inText from rfl]
    split <;> rfl
  · exact ⟨rfl, rfl⟩
  · next content _ => exact ⟨(hread content).margin, congrArg (_ :: ·) (hread content).tokens⟩
  · exact hread _

private theorem ContentReading.column_pos {unit : Int} {m : Margin} {p : Place} {column : Nat}
    {content : List Char} {r : Margin × List Token} (h : ContentReading unit m p column content r)
    (hm : 1 ≤ m.column) (hcolumn : 1 ≤ column) : 1 ≤ r.1.column := by
  cases h with
  | rejected | kept => exact hm
  | keyword | text => exact hcolumn

/-- The margin never moves in front of the first column. -/
theorem LineReading.column_pos {unit : Int} {m : Margin} {p : Place} {r : Margin × List Token}
    (h : LineReading unit m p r) (hm : 1 ≤ m.column) : 1 ≤ r.1.column := by
  cases h with
  | blank | comment => exact hm
  | tab _ hread | content _ _ _ hread => exact hread.column_pos hm (startColumn_pos p.line)

/-- Lines further right give the same tokens from a margin further right, in whatever file and at
whatever line they stand. -/
theorem indented_readLines (unit : Int) (n : Nat) (f g : String) {m : Margin} (hm : 1 ≤ m.column)
    (i j : Nat) (lines : List (List Char)) :
    Indented n (readLines unit f m i lines)
      (readLines unit g (m.indented n) j (lines.map (indented n))) := by
  induction lines generalizing m i j with
  | nil => exact ⟨rfl, rfl⟩
  | cons line lines ih =>
    let p : Place := { fileName := f, number := i, line }
    let q : Place := { fileName := g, number := j, line := indented n line }
    have hline := indented_readLine unit (show q.line = indented n p.line from rfl) hm
    have hpos := (readLine_reading unit m p).column_pos hm
    have hlines := ih hpos (i + 1) (j + 1)
    rw [← hline.margin] at hlines
    simp only [readLines, List.map_cons]
    refine ⟨hlines.margin, ?_⟩
    rw [List.map_append, List.map_append, hline.tokens, hlines.tokens]

/-- The place of lines shows in the places of their tokens only. -/
theorem bare_readLines (unit : Int) (f g : String) {m : Margin} (hm : 1 ≤ m.column) (i j : Nat)
    (lines : List (List Char)) :
    (readLines unit f m i lines).1 = (readLines unit g m j lines).1 ∧
      (readLines unit f m i lines).2.map Token.bare =
        (readLines unit g m j lines).2.map Token.bare := by
  have hsame : lines.map (indented 0) = lines := List.map_id lines
  obtain ⟨hmargin, htokens⟩ := indented_readLines unit 0 f g hm i j lines
  rw [hsame] at hmargin htokens
  exact ⟨hmargin.symm, htokens⟩

/-! ### Keyword lines -/

/-- A keyword line without tab that starts at a column. -/
structure KeywordLine (column : Nat) (kind : TokenKind) (line : List Char) : Prop where
  column_eq : startColumn line = column
  no_tab : (lineContent line).head? ≠ some '\t'
  keyword_eq : lineKeyword? line = some kind

instance (column : Nat) (kind : TokenKind) (line : List Char) :
    Decidable (KeywordLine column kind line) :=
  decidable_of_iff (startColumn line = column ∧ (lineContent line).head? ≠ some '\t' ∧
      lineKeyword? line = some kind)
    ⟨fun ⟨hcolumn, htab, hkeyword⟩ => ⟨hcolumn, htab, hkeyword⟩,
      fun ⟨hcolumn, htab, hkeyword⟩ => ⟨hcolumn, htab, hkeyword⟩⟩

namespace KeywordLine

variable {column : Nat} {kind : TokenKind} {line : List Char}

private theorem indented (h : KeywordLine column kind line) (n : Nat) :
    KeywordLine (column + n) kind (indented n line) where
  column_eq := by rw [Outline.indented, startColumn_spaces, h.column_eq, Nat.add_comm]
  no_tab := by rw [Outline.indented, lineContent_spaces]; exact h.no_tab
  keyword_eq := by
    rw [Outline.indented, lineKeyword?, lineContent_spaces]
    exact h.keyword_eq

private theorem readLine_eq (h : KeywordLine column kind line) (unit : Int) (m : Margin)
    (fileName : String) (number : Nat) :
    readLine unit m { fileName, number, line } =
      readKeyword unit m { fileName, number, line } column kind
        (Text.firstWord (lineContent line)).1 (Text.firstWord (lineContent line)).2 := by
  have hkeyword := h.keyword_eq
  cases hcontent : lineContent line with
  | nil =>
    have hnone : Keyword.classify? (Text.firstWord []).1 = none := by decide
    simp [lineKeyword?, hcontent, hnone] at hkeyword
  | cons c rest =>
    have hcomment : c ≠ '#' := by
      rintro rfl
      simp [lineKeyword?, hcontent] at hkeyword
    have htab : c ≠ '\t' := by
      rintro rfl
      exact h.no_tab (by rw [hcontent]; rfl)
    rw [lineKeyword?_of_content hcontent hcomment] at hkeyword
    rw [readLine_of_content hcontent hcomment htab]
    simp only [readContent, hkeyword, h.column_eq]

private theorem readLine_moved (h : KeywordLine column kind line) {unit : Int} {m : Margin}
    {fileName : String} {number : Nat} {marks : List Token}
    (hshift : shift unit m.column { fileName, number, line } column = .moved marks) :
    readLine unit m { fileName, number, line } =
      ({ column, inText := false }, marks ++ keywordTokens { fileName, number, line } column kind
        (Text.firstWord (lineContent line)).1 (Text.firstWord (lineContent line)).2) := by
  rw [h.readLine_eq]
  simp only [readKeyword, hshift]

end KeywordLine

/-- A line a whole number of units away moves the margin. -/
theorem moved_of_modEq {u margin column : Nat} (hu : 0 < u) (h : margin ≡ column [MOD u])
    (p : Place) : ∃ marks, shift u margin p column = .moved marks := by
  rcases Nat.le_total margin column with hle | hle
  · obtain ⟨n, hn⟩ := (Nat.modEq_iff_dvd' hle).mp h
    obtain rfl : column = margin + n * u := by rw [Nat.mul_comm] at hn; omega
    exact ⟨_, shift_right hu margin n p⟩
  · obtain ⟨n, hn⟩ := (Nat.modEq_iff_dvd' hle).mp h.symm
    obtain rfl : margin = column + n * u := by rw [Nat.mul_comm] at hn; omega
    exact ⟨_, shift_left hu column n p⟩

/-! ### Closed lines -/

/-- The tokens of lines from a margin on, with the marks that close what is open behind them. -/
def closedTokens (u : Nat) (fileName : String) (m : Margin) (number : Nat)
    (lines : List (List Char)) : List Token :=
  (readLines u fileName m number lines).2 ++
    closingMarks u fileName (number + lines.length) (readLines u fileName m number lines).1.column

/-- The content of an outline is what its lines give, closed at the end. -/
theorem content_eq_closedTokens {width : UInt64} (hwidth : PlainWidth width)
    (fileName source : String) :
    content width fileName source =
      closedTokens width.toNat fileName {} 1 (Text.lines source.toList) := by
  rw [content, closedTokens, signedUnit_eq hwidth, atLeastOne_eq hwidth, Nat.add_comm 1]

/-- Lines are read in two portions, the second from where the first one left the margin. -/
theorem closedTokens_append (u : Nat) (fileName : String) (m : Margin) (number : Nat)
    (ls rs : List (List Char)) :
    closedTokens u fileName m number (ls ++ rs) =
      (readLines u fileName m number ls).2 ++
        closedTokens u fileName (readLines u fileName m number ls).1 (number + ls.length) rs := by
  have hboth := readLines_append (rfl : readLines u fileName m number ls = (_, _))
    (rfl : readLines u fileName _ (number + ls.length) rs = (_, _))
  simp only [closedTokens, hboth, List.length_append, List.append_assoc, Nat.add_assoc]

/-- A keyword line gives its marks and words, and what follows does not depend on what came
before. -/
theorem closedTokens_keyword {u column : Nat} {kind : TokenKind} {line : List Char}
    (h : KeywordLine column kind line) {fileName : String} {m : Margin} {number : Nat}
    {marks : List Token}
    (hshift : shift u m.column { fileName, number, line } column = .moved marks)
    (lines : List (List Char)) :
    closedTokens u fileName m number (line :: lines) =
      marks ++ (keywordTokens { fileName, number, line } column kind
          (Text.firstWord (lineContent line)).1 (Text.firstWord (lineContent line)).2 ++
        closedTokens u fileName { column, inText := false } (number + 1) lines) := by
  simp only [closedTokens, readLines, h.readLine_moved hshift, List.length_cons,
    List.append_assoc, Nat.add_assoc, Nat.add_comm 1]

/-- The mark for a level less, without its place. -/
def bareOutdent : Token := (outdentMark { fileName := "", number := 0, line := [] } 0).bare

private theorem bare_closingMarks (width : Nat) (f g : String) (i j column : Nat) :
    (closingMarks width f i column).map Token.bare =
      (closingMarks width g j column).map Token.bare := by
  fun_induction closingMarks width f i column with
  | case1 column h ih =>
    rw [List.map_cons, ih, closingMarks.eq_def width g j column, dif_pos h]
    rfl
  | case2 column h => rw [closingMarks, dif_neg h]

private theorem bare_closingMarks_units {u : Nat} (hu : 0 < u) (fileName : String)
    (number k : Nat) :
    (closingMarks u fileName number (k * u + 1)).map Token.bare = List.replicate k bareOutdent := by
  have hmark (column : Nat) :
      ∀ t ∈ (closingMarks u fileName number column).map Token.bare, t = bareOutdent := by
    fun_induction closingMarks u fileName number column with
    | case1 column h ih =>
      rintro t (_ | ⟨_, ht⟩)
      · rfl
      · exact ih t ht
    | case2 => simp
  rw [List.eq_replicate_iff, List.length_map, length_closingMarks hu]
  exact ⟨rfl, hmark _⟩

/-- The place of closed lines shows in the places of their tokens only. -/
theorem bare_closedTokens (u : Nat) (f g : String) {m : Margin} (hm : 1 ≤ m.column) (i j : Nat)
    (lines : List (List Char)) :
    (closedTokens u f m i lines).map Token.bare = (closedTokens u g m j lines).map Token.bare := by
  obtain ⟨hmargin, htokens⟩ := bare_readLines u f g hm i j lines
  rw [closedTokens, closedTokens, List.map_append, List.map_append, htokens, hmargin,
    bare_closingMarks]

/-- Lines that go back from a column by whole units, or no lines at all. -/
def Returns (u column : Nat) (lines : List (List Char)) : Prop :=
  ∀ line ∈ lines.head?, ∃ d kind, KeywordLine d kind line ∧ d ≤ column ∧ u ∣ column - d

/-- From a margin that stands further right by some levels, lines that go back give as many marks
more, and nothing else changes. -/
theorem bare_closedTokens_right {u : Nat} (hu : 0 < u) {lines : List (List Char)} {k l : Nat}
    (hlines : Returns u (l * u + 1) lines) (fileName : String) (inText : Bool) (i j : Nat) :
    (closedTokens u fileName { column := (l + k) * u + 1, inText } i lines).map Token.bare =
      List.replicate k bareOutdent ++
        (closedTokens u fileName { column := l * u + 1, inText := false } j lines).map
          Token.bare := by
  cases lines with
  | nil =>
    simp only [closedTokens, readLines, List.nil_append, bare_closingMarks_units hu]
    rw [Nat.add_comm l k, List.replicate_add]
  | cons line lines =>
    obtain ⟨d, kind, hline, hle, n, hn⟩ := hlines line rfl
    have hright : (l + k) * u + 1 = d + (k + n) * u := by
      rw [Nat.mul_comm u n] at hn
      rw [Nat.add_mul, Nat.add_mul]
      omega
    have hback : l * u + 1 = d + n * u := by
      rw [Nat.mul_comm u n] at hn
      omega
    have hfar := shift_left hu d (k + n) { fileName, number := i, line }
    have hnear := shift_left hu d n { fileName, number := j, line }
    rw [closedTokens_keyword hline (hright ▸ hfar), closedTokens_keyword hline (hback ▸ hnear)]
    simp only [List.map_append, List.map_replicate, List.replicate_add, List.append_assoc]
    rw [bare_keywordTokens _ { fileName, number := j, line } d d,
      bare_closedTokens u fileName fileName (hline.column_eq ▸ startColumn_pos line) _ (j + 1)]
    rfl

/-- The lines of a file that starts with a keyword line, put further right by whole units before
lines that go back: they give the marks that lead there, the tokens of the file with the marks that
close it, and the tokens of the lines behind. -/
theorem closedTokens_indented {u n : Nat} (hu : 0 < u) (hn : u ∣ n) {first : List Char}
    {kind : TokenKind} (hfirst : KeywordLine 1 kind first) (others : List (List Char))
    {behind : List (List Char)} (hbehind : Returns u (n + 1) behind) {f : String} {m : Margin}
    {i : Nat} {marks : List Token}
    (hshift : shift u m.column { fileName := f, number := i, line := indented n first } (n + 1) =
      .moved marks) (g : String) (j : Nat) :
    ∃ inside after,
      closedTokens u f m i ((first :: others).map (indented n) ++ behind) =
        marks ++ (inside ++ after) ∧
      (closedTokens u g {} 1 (first :: others)).map Token.bare = inside.map Token.bare ∧
      (closedTokens u f { column := n + 1 } j behind).map Token.bare = after.map Token.bare := by
  obtain ⟨l, rfl⟩ : ∃ l, n = l * u := by
    obtain ⟨l, rfl⟩ := hn
    exact ⟨l, Nat.mul_comm u l⟩
  have hindented : KeywordLine (l * u + 1) kind (indented (l * u) first) := by
    rw [Nat.add_comm]
    exact hfirst.indented (l * u)
  have hstay : shift u ({} : Margin).column { fileName := g, number := 1, line := first } 1 =
      .moved [] := by simp [shift]
  have hstart : Margin.indented (l * u) {} = { column := l * u + 1 } := by
    simp [Margin.indented, Nat.add_comm]
  obtain ⟨hmargin, htokens⟩ := indented_readLines u (l * u) g f (m := {}) (Nat.le_refl 1) 2 (i + 1)
    others
  rw [hstart] at hmargin htokens
  -- The margin behind the file stands right of the first column by the levels that are open there.
  obtain ⟨k, hk⟩ : ∃ k, (readLines u g {} 2 others).1.column = k * u + 1 := by
    obtain ⟨k, -, hk⟩ := level?_readLines hu g 1 (first :: others)
    simp only [readLines, hfirst.readLine_moved hstay] at hk
    exact ⟨k, hk⟩
  obtain ⟨inText, hlast⟩ : ∃ inText, (readLines u f { column := l * u + 1 } (i + 1)
      (others.map (indented (l * u)))).1 = { column := (l + k) * u + 1, inText } := by
    refine ⟨(readLines u g {} 2 others).1.inText, ?_⟩
    rw [hmargin, Margin.indented, hk, Nat.add_mul]
    congr 1
    omega
  have hsplit := bare_closedTokens_right hu (k := k) hbehind f inText
    (i + 1 + (others.map (indented (l * u))).length) j
  obtain ⟨closing, after, hcut, hclosing, hafter⟩ := List.map_eq_append_iff.mp hsplit
  refine ⟨keywordTokens { fileName := f, number := i, line := indented (l * u) first } (l * u + 1)
    kind (Text.firstWord (lineContent first)).1 (Text.firstWord (lineContent first)).2 ++
    ((readLines u f { column := l * u + 1 } (i + 1) (others.map (indented (l * u)))).2 ++ closing),
    after, ?_, ?_, hafter.symm⟩
  · rw [List.map_cons, List.cons_append, closedTokens_keyword hindented hshift,
      closedTokens_append, hlast, hcut]
    simp only [List.append_assoc]
    rw [indented, lineContent_spaces]
  · rw [closedTokens_keyword hfirst hstay, closedTokens, hk]
    simp only [List.nil_append, List.map_append, hclosing, bare_closingMarks_units hu, htokens]
    rw [bare_keywordTokens]

end PromptOutline.Outline
