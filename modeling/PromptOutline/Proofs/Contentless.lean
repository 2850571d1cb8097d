import PromptOutline.Proofs.Indented
import PromptOutline.Proofs.LinePrefix

/-!
# Lines without content

A comment, a blank line and a line that is rejected leave the margin as it is. So the lines behind
such a line are read as if it was not there, and leaving it out takes away its own tokens and lowers
the line numbers behind it.
-/

namespace PromptOutline

/-- A text without one of its lines and the line feed that ends it. -/
def Text.withoutLine : Nat → List Char → List Char
  | _, [] => []
  | 0, c :: cs => if c = '\n' then cs else withoutLine 0 cs
  | i + 1, c :: cs => c :: withoutLine (if c = '\n' then i else i + 1) cs

namespace Text

/-- The lines of a text by its first line. -/
theorem lines_append_cons {cs : List Char} (h : '\n' ∉ cs) (ds : List Char) :
    lines (cs ++ '\n' :: ds) = dropReturn cs :: lines ds := by
  obtain ⟨piece, others, hds⟩ := List.exists_cons_of_ne_nil (pieces_ne_nil '\n' ds)
  rw [lines, pieces_append, pieces_of_notMem h, List.singleton_append, lines, hds, linesOfPieces]

private theorem lines_of_notMem {cs : List Char} (h : '\n' ∉ cs) :
    lines cs = if cs = [] then [] else [cs] := by
  rw [lines, pieces_of_notMem h, linesOfPieces]

private theorem withoutLine_zero_append {cs : List Char} (h : '\n' ∉ cs) (ds : List Char) :
    withoutLine 0 (cs ++ '\n' :: ds) = ds := by
  induction cs with
  | nil => simp [withoutLine]
  | cons c cs ih =>
    rw [List.mem_cons, not_or] at h
    rw [List.cons_append, withoutLine, if_neg (Ne.symm h.1), ih h.2]

private theorem withoutLine_succ_append {cs : List Char} (h : '\n' ∉ cs) (i : Nat)
    (ds : List Char) :
    withoutLine (i + 1) (cs ++ '\n' :: ds) = cs ++ '\n' :: withoutLine i ds := by
  induction cs with
  | nil => simp [withoutLine]
  | cons c cs ih =>
    rw [List.mem_cons, not_or] at h
    rw [List.cons_append, withoutLine, if_neg (Ne.symm h.1), ih h.2, List.cons_append]

private theorem withoutLine_of_notMem {cs : List Char} (h : '\n' ∉ cs) (i : Nat) :
    withoutLine i cs = if i = 0 then [] else cs := by
  induction cs with
  | nil => simp [withoutLine]
  | cons c cs ih =>
    rw [List.mem_cons, not_or] at h
    cases i with
    | zero => rw [withoutLine, if_neg (Ne.symm h.1), ih h.2, if_pos rfl, if_pos rfl]
    | succ i => rw [withoutLine, if_neg (Ne.symm h.1), ih h.2, if_neg (by simp), if_neg (by simp)]

/-- The other lines stay. -/
theorem lines_withoutLine (i : Nat) (cs : List Char) :
    lines (withoutLine i cs) = (lines cs).eraseIdx i := by
  induction h : cs.length using Nat.strong_induction_on generalizing i cs with
  | _ n ih =>
    by_cases hfeed : '\n' ∈ cs
    · obtain ⟨first, rest, rfl, hfirst⟩ := List.eq_append_cons_of_mem hfeed
      rw [lines_append_cons hfirst]
      cases i with
      | zero => rw [withoutLine_zero_append hfirst, List.eraseIdx_cons_zero]
      | succ i =>
        have hlt : rest.length < n := by
          rw [← h, List.length_append, List.length_cons]
          omega
        rw [withoutLine_succ_append hfirst, lines_append_cons hfirst, ih _ hlt i rest rfl,
          List.eraseIdx_cons_succ]
    · rw [withoutLine_of_notMem hfeed, lines_of_notMem hfeed]
      cases i with
      | zero =>
        rw [if_pos rfl]
        split <;> rfl
      | succ i =>
        rw [if_neg (Nat.succ_ne_zero i), lines_of_notMem hfeed]
        split <;> simp

end Text

/-- A token one line further down. -/
def Token.raised (t : Token) : Token := { t with line := t.line + 1 }

/-- A token one line further up, if it stands behind a line. -/
def Token.lowered (number : Nat) (t : Token) : Token :=
  if number < t.line then { t with line := t.line - 1 } else t

namespace Outline

variable {unit : Int} {fileName : String} {m : Margin} {number : Nat}

/-! ### Lines further down -/

/-- The place of a line one further down. -/
def Place.raised (p : Place) : Place := { p with number := p.number + 1 }

/-- A shift one line further down. -/
def Shift.raised : Shift → Shift
  | .moved marks => .moved (marks.map Token.raised)
  | .rejected mark => .rejected mark.raised

private theorem shift_raised (unit : Int) (margin : Nat) (p : Place) (column : Nat) :
    shift unit margin p.raised column = (shift unit margin p column).raised := by
  unfold shift
  dsimp only
  split
  · rfl
  · split
    · split <;> rfl
    · split <;> simp [Shift.raised, Place.token, Place.raised, Token.raised]

private theorem keywordTokens_raised (p : Place) (column : Nat) (kind : TokenKind)
    (word rest : List Char) :
    keywordTokens p.raised column kind word rest =
      (keywordTokens p column kind word rest).map Token.raised := by
  unfold keywordTokens
  split <;> rfl

private theorem readContent_raised (unit : Int) (m : Margin) (p : Place) (column : Nat)
    (content : List Char) :
    readContent unit m p.raised column content =
      ((readContent unit m p column content).1,
        (readContent unit m p column content).2.map Token.raised) := by
  unfold readContent
  dsimp only
  split
  · unfold readKeyword
    rw [shift_raised]
    cases shift unit m.column p column with
    | rejected mark => rfl
    | moved marks => simp [Shift.raised, keywordTokens_raised]
  · unfold readText
    rw [shift_raised]
    split
    · rfl
    · cases shift unit m.column p column with
      | rejected mark => rfl
      | moved marks =>
        simp only [Shift.raised, List.map_append]
        rfl

private theorem readLine_raised (unit : Int) (m : Margin) (p : Place) :
    readLine unit m p.raised =
      ((readLine unit m p).1, (readLine unit m p).2.map Token.raised) := by
  have hline : p.raised.line = p.line := rfl
  simp only [readLine, hline, readContent_raised]
  split
  · split <;> rfl
  · rfl
  · rfl
  · rfl

/-- Lines further down give tokens further down. -/
theorem readLines_raised (unit : Int) (fileName : String) (m : Margin) (number : Nat)
    (ls : List (List Char)) :
    readLines unit fileName m (number + 1) ls =
      ((readLines unit fileName m number ls).1,
        (readLines unit fileName m number ls).2.map Token.raised) := by
  induction ls generalizing m number with
  | nil => rfl
  | cons line ls ih =>
    have hline := readLine_raised unit m { fileName, number, line }
    simp only [Place.raised] at hline
    simp only [readLines, hline, ih, List.map_append]

private theorem closing_raised (width : UInt64) (fileName : String) (number : Nat) (m : Margin) :
    closing width fileName (number + 1) m = (closing width fileName number m).map Token.raised := by
  have hmarks (width column : Nat) : closingMarks width fileName (number + 1) column =
      (closingMarks width fileName number column).map Token.raised := by
    fun_induction closingMarks width fileName number column with
    | case1 column h ih =>
      rw [closingMarks, dif_pos h, ih]
      rfl
    | case2 column h =>
      rw [closingMarks, dif_neg h]
      rfl
  rw [closing, closing, List.map_append, hmarks]
  rfl

/-! ### Lines that leave the margin -/

/-- Whether a line is a comment. -/
def isComment (line : List Char) : Bool := (lineContent line).head? == some '#'

/-- Whether a token marks a line as rejected. -/
def IsRejection (t : Token) : Prop := t.kind = .badIndent ∨ t.kind = .badOutdent

instance : DecidablePred IsRejection := fun _ => inferInstanceAs (Decidable (_ ∨ _))

private theorem ContentReading.margin_of_rejected {p : Place} {column : Nat} {content : List Char}
    {r : Margin × List Token} (h : ContentReading unit m p column content r)
    (hbad : ∃ t ∈ r.2, IsRejection t) : r.1 = m := by
  obtain ⟨t, ht, hbad⟩ := hbad
  have hmarks {marks : List Token} (hshift : shift unit m.column p column = .moved marks)
      (ht : t ∈ marks) : False := by
    rcases kinds_of_moved hshift t ht with he | he <;> simp [IsRejection, he] at hbad
  cases h with
  | rejected => rfl
  | kept => rfl
  | keyword hkind hshift =>
    rcases List.mem_append.mp ht with ht | ht
    · exact (hmarks hshift ht).elim
    · have hkey := Keyword.keyword?_of_classify? hkind
      rcases kinds_of_keywordTokens ht with he | he
      · rcases hbad with hbad | hbad <;> rw [he] at hbad <;>
          simp [hbad, TokenKind.isBlock, TokenKind.isDirective] at hkey
      · simp [IsRejection, he] at hbad
  | text _ _ hshift =>
    rcases List.mem_append.mp ht with ht | ht
    · exact (hmarks hshift ht).elim
    · rw [List.mem_singleton.mp ht] at hbad
      simp [IsRejection, textToken, Place.token] at hbad

/-- Blank lines, comments and rejected lines leave the margin as it is. -/
theorem LineReading.margin_of_contentless {p : Place} {r : Margin × List Token}
    (h : LineReading unit m p r)
    (hline : lineContent p.line = [] ∨ isComment p.line = true ∨ ∃ t ∈ r.2, IsRejection t) :
    r.1 = m := by
  cases h with
  | blank => rfl
  | comment => rfl
  | @tab rest r hcontent hread =>
    have hbad : ∃ t ∈ r.2, IsRejection t := by
      rw [isComment, hcontent] at hline
      simpa [IsRejection, Place.token] using hline
    exact hread.margin_of_rejected hbad
  | content hcontent hcomment _ hread =>
    rw [isComment, hcontent] at hline
    exact hread.margin_of_rejected (by simpa [hcomment] using hline)

/-- A comment gives nothing. -/
theorem readLine_of_isComment {p : Place} (h : isComment p.line = true) :
    readLine unit m p = (m, []) := by
  cases hcontent : lineContent p.line with
  | nil => simp [isComment, hcontent] at h
  | cons c rest =>
    obtain rfl : c = '#' := by simpa [isComment, hcontent] using h
    rw [lineContent] at hcontent
    simp only [readLine, hcontent]

/-! ### Leaving a line out -/

/-- A line without content: a blank one, a comment, or one that is rejected. -/
def Contentless (width : UInt64) (fileName source : String) (i : Nat) : Prop :=
  ∃ line, (Text.lines source.toList)[i]? = some line ∧
    (lineContent line = [] ∨ isComment line = true ∨
      ∃ t ∈ tokens width fileName source, t.line = i + 1 ∧ IsRejection t)

/-- Tokens of one line go away, and those behind it move up. -/
theorem map_lowered_filter {ts us rest : List Token} (hts : ∀ t ∈ ts, t.line < number)
    (hus : ∀ t ∈ us, t.line = number) (hrest : ∀ t ∈ rest, number ≤ t.line) :
    ((ts ++ (us ++ rest.map Token.raised)).filter fun t => t.line ≠ number).map
      (Token.lowered number) = ts ++ rest := by
  have hbefore : ts.filter (fun t => t.line ≠ number) = ts :=
    List.filter_eq_self.mpr fun t ht => by simpa using Nat.ne_of_lt (hts t ht)
  have hline : us.filter (fun t => t.line ≠ number) = [] :=
    List.filter_eq_nil_iff.mpr fun t ht => by simpa using hus t ht
  have hbehind : (rest.map Token.raised).filter (fun t => t.line ≠ number) =
      rest.map Token.raised := by
    refine List.filter_eq_self.mpr fun t ht => ?_
    obtain ⟨u, hu, rfl⟩ := List.mem_map.mp ht
    exact decide_eq_true (Nat.ne_of_gt (Nat.lt_succ_of_le (hrest u hu)))
  have hkept : ts.map (Token.lowered number) = ts := by
    refine (List.map_congr_left fun t ht => ?_).trans (List.map_id ts)
    rw [Token.lowered, if_neg (Nat.not_lt.mpr (Nat.le_of_lt (hts t ht)))]
    rfl
  have hmoved : (rest.map Token.raised).map (Token.lowered number) = rest := by
    rw [List.map_map]
    refine (List.map_congr_left fun t ht => ?_).trans (List.map_id rest)
    rw [Function.comp_apply, Token.lowered, Token.raised,
      if_pos (Nat.lt_succ_of_le (hrest t ht))]
    rfl
  rw [List.filter_append, List.filter_append, hbefore, hline, hbehind, List.nil_append,
    List.map_append, hkept, hmoved]

/-- The lines before a line and behind it. -/
theorem exists_around {ls : List (List Char)} {line : List Char} {i : Nat}
    (h : ls[i]? = some line) :
    ∃ before after, before.length = i ∧ ls = before ++ line :: after ∧
      ls.eraseIdx i = before ++ after := by
  obtain ⟨hlt, rfl⟩ := List.getElem?_eq_some_iff.mp h
  refine ⟨ls.take i, ls.drop (i + 1), List.length_take_of_le (Nat.le_of_lt hlt), ?_,
    List.eraseIdx_eq_take_drop_succ ls i⟩
  rw [List.getElem_cons_drop, List.take_append_drop]

/-- The tokens of an outline around one of its lines: those before it, its own, and those behind it,
which would stand one line further up without it. -/
theorem tokens_around (width : UInt64) (fileName : String) {source : String}
    {before after : List (List Char)} {line : List Char}
    (h : Text.lines source.toList = before ++ line :: after) :
    let unit := signedUnit width
    let first := readLines unit fileName {} 1 before
    let own := readLine unit first.1 { fileName, number := before.length + 1, line }
    let last := readLines unit fileName own.1 (before.length + 1) after
    let rest := last.2 ++ closing width fileName (before.length + after.length + 1) last.1
    tokens width fileName source = first.2 ++ (own.2 ++ rest.map Token.raised) ∧
      (∀ t ∈ first.2, t.line < before.length + 1) ∧ (∀ t ∈ own.2, t.line = before.length + 1) ∧
      ∀ t ∈ rest, before.length + 1 ≤ t.line := by
  intro unit first own last rest
  have hnumber : 1 + before.length = before.length + 1 := Nat.add_comm 1 _
  have hbehind : readLines unit fileName own.1 (before.length + 1 + 1) after =
      (last.1, last.2.map Token.raised) := readLines_raised ..
  have hwith : readLines unit fileName {} 1 (before ++ line :: after) =
      (last.1, first.2 ++ (own.2 ++ last.2.map Token.raised)) := by
    have hown : readLines unit fileName first.1 (before.length + 1) (line :: after) =
        (last.1, own.2 ++ last.2.map Token.raised) := readLines_cons rfl hbehind
    exact readLines_append rfl (hnumber ▸ hown)
  have hlength : (before ++ line :: after).length + 1 = before.length + after.length + 1 + 1 := by
    rw [List.length_append, List.length_cons]
    omega
  refine ⟨?_, fun t ht => ?_, fun t ht => line_of_mem_readLine ht, fun t ht => ?_⟩
  · rw [tokens_eq_closing, h, hwith, hlength, closing_raised]
    simp only [rest, List.append_assoc, List.map_append]
  · exact hnumber ▸ (line_of_mem_readLines ht).2
  · rcases List.mem_append.mp ht with ht | ht
    · exact (line_of_mem_readLines ht).1
    · rw [(mem_closing ht).1]
      omega

/-- Without a line that has no content, the tokens of an outline are the same but for those of the
line, and what stands behind it stands one line further up. -/
theorem tokens_eraseIdx {width : UInt64} {source source' : String} {i : Nat}
    (h : Contentless width fileName source i)
    (hsource : Text.lines source'.toList = (Text.lines source.toList).eraseIdx i) :
    tokens width fileName source' =
      ((tokens width fileName source).filter fun t => t.line ≠ i + 1).map
        (Token.lowered (i + 1)) := by
  obtain ⟨line, hi, hline⟩ := h
  obtain ⟨before, after, rfl, hlines, herased⟩ := exists_around hi
  rw [← hsource] at herased
  obtain ⟨htokens, hahead, hhere, hbehind⟩ := tokens_around width fileName hlines
  let first := readLines (signedUnit width) fileName {} 1 before
  let p : Place := { fileName, number := before.length + 1, line }
  -- the line leaves the margin, so what stands behind it is read the same without it
  have hmargin : (readLine (signedUnit width) first.1 p).1 = first.1 := by
    refine (readLine_reading _ first.1 p).margin_of_contentless
      (hline.imp_right (Or.imp_right ?_))
    rintro ⟨t, ht, hnumber, hbad⟩
    rw [htokens] at ht
    rcases List.mem_append.mp ht with ht | ht
    · exact absurd hnumber (Nat.ne_of_lt (hahead t ht))
    rcases List.mem_append.mp ht with ht | ht
    · exact ⟨t, ht, hbad⟩
    · obtain ⟨u, hu, rfl⟩ := List.mem_map.mp ht
      exact absurd hnumber (Nat.ne_of_gt (Nat.lt_succ_of_le (hbehind u hu)))
  rw [htokens, map_lowered_filter hahead hhere hbehind, hmargin, tokens_eq_closing, herased,
    List.length_append]
  have hboth := readLines_append (rfl : first = (first.1, first.2))
    (rfl : readLines (signedUnit width) fileName first.1 (1 + before.length) after = (_, _))
  rw [Nat.add_comm 1 before.length] at hboth
  rw [hboth, List.append_assoc]

/-! ### Comments -/

/-- The lines of a text that are no comments. -/
def uncommented (source : String) : List (List Char) :=
  (Text.lines source.toList).filter (!isComment ·)

/-- Lines read without their comments give the same tokens, up to places. -/
theorem bare_readLines_uncommented (unit : Int) (fileName : String) {m : Margin} (hm : 1 ≤ m.column)
    (number number' : Nat) (ls : List (List Char)) :
    (readLines unit fileName m number ls).1 =
        (readLines unit fileName m number' (ls.filter (!isComment ·))).1 ∧
      (readLines unit fileName m number ls).2.map Token.bare =
        (readLines unit fileName m number' (ls.filter (!isComment ·))).2.map Token.bare := by
  induction ls generalizing m number number' with
  | nil => exact ⟨rfl, rfl⟩
  | cons line ls ih =>
    by_cases hcomment : isComment line = true
    · have hskip : readLine unit m { fileName, number, line } = (m, []) :=
        readLine_of_isComment hcomment
      rw [readLines, hskip, List.filter_cons_of_neg (by simpa using hcomment)]
      exact ih hm (number + 1) number'
    · have hpos := (readLine_reading unit m { fileName, number, line }).column_pos hm
      obtain ⟨hmargin, hbare⟩ := bare_readLines unit fileName fileName hm number number' [line]
      simp only [readLines, List.append_nil] at hmargin hbare
      obtain ⟨hlast, hothers⟩ := ih hpos (number + 1) (number' + 1)
      rw [List.filter_cons_of_pos (by simpa using hcomment), readLines, readLines]
      simp only [List.map_append]
      rw [← hmargin, hbare]
      exact ⟨hlast, congrArg (_ ++ ·) hothers⟩

private theorem bare_closing (width : UInt64) (fileName : String) (number : Nat) (m : Margin) :
    (closing width fileName number m).map Token.bare =
      (closing width fileName 0 m).map Token.bare := by
  induction number with
  | zero => rfl
  | succ number ih =>
    rw [closing_raised, List.map_map, ← ih]
    rfl

/-- Comments change no token of an outline, places aside. -/
theorem bare_tokens_of_uncommented (width : UInt64) (fileName : String) {source source' : String}
    (h : uncommented source = uncommented source') :
    (tokens width fileName source).map Token.bare =
      (tokens width fileName source').map Token.bare := by
  have hread (source : String) := bare_readLines_uncommented (signedUnit width) fileName
    (m := {}) (le_refl 1) 1 1 (Text.lines source.toList)
  rw [tokens_eq_closing, tokens_eq_closing, List.map_append, List.map_append, (hread source).2,
    (hread source').2, (hread source).1, (hread source').1]
  rw [uncommented, uncommented] at h
  rw [h, bare_closing, bare_closing width fileName ((Text.lines source'.toList).length + 1)]

end Outline

end PromptOutline
