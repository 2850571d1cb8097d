import PromptOutline.Proofs.ByteCuts

/-!
# The shapes of lines

The tokens of one line have one of five shapes: nothing, an empty text, a rejection, a keyword with
words behind it or without, and a text. A tab mark may stand before the last three, and marks for
the move of the margin before the last two. `LineReading.existsUnique_fits` gives the shape of each
way to read a line, and `line_image` says it of all lines of an outline, with what follows for the
words behind keywords.
-/

namespace PromptOutline.Outline

/-! ### Parts of lines -/

/-- At most one token, which marks a tab. -/
def IsTabMark (ts : List Token) : Prop := ts = [] ∨ ∃ t, ts = [t] ∧ t.kind = .tab

/-- Copies of one token, which marks that the margin moves right or left by one unit. -/
def IsMove (ts : List Token) : Prop :=
  ∃ n mark, ts = List.replicate n mark ∧ (mark.kind = .indent ∨ mark.kind = .outdent)

private theorem isMove_nil : IsMove [] :=
  ⟨0, { (default : Token) with kind := .indent }, rfl, .inl rfl⟩

/-- At most one token, for the words that a line has behind its keyword. -/
def IsWords (line : List Char) (ts : List Token) : Prop :=
  ts = [] ∨ ∃ t, ts = [t] ∧ t.kind = .keywordText ∧ t.text.toList <:+ line ∧
    IsNameText t.text.toList

/-- A text that is all of its line but for the spaces before its column. -/
structure IsLineText (line : List Char) (t : Token) : Prop where
  kind : t.kind = .text
  nonempty : t.text ≠ ""
  line : ∃ n, t.column = n + 1 ∧ line = List.replicate n ' ' ++ t.text.toList

/-! ### Shapes -/

instance : DecidablePred IsKeyword := fun _ => inferInstanceAs (Decidable (_ ∨ _))

/-- What the tokens of one line can be. -/
inductive LineShape where
  | nothing
  | emptyText
  | rejected
  | keyword
  | text
  deriving Repr, DecidableEq

namespace LineShape

/-- Whether tokens of a line have a shape. -/
def Fits (line : List Char) : LineShape → List Token → Prop
  | nothing, ts => ts = []
  | emptyText, ts => (∀ c ∈ line, c = ' ') ∧ ∃ t, ts = [t] ∧ t.kind = .text ∧ t.text = ""
  | rejected, ts => ∃ tabs mark, ts = tabs ++ [mark] ∧ IsTabMark tabs ∧ IsRejection mark
  | keyword, ts => ∃ tabs marks key words, ts = tabs ++ (marks ++ key :: words) ∧
      IsTabMark tabs ∧ IsMove marks ∧ IsKeyword key ∧ IsWords line words
  | text, ts => ∃ tabs marks t, ts = tabs ++ (marks ++ [t]) ∧
      IsTabMark tabs ∧ IsMove marks ∧ IsLineText line t

/-- The shape that tokens of a line have. -/
def ofTokens (ts : List Token) : LineShape :=
  if ∃ t ∈ ts, IsKeyword t then keyword
  else if ∃ t ∈ ts, IsRejection t then rejected
  else match ts.getLast? with
    | none => nothing
    | some t => if t.text = "" then emptyText else text

variable {line : List Char} {ts : List Token}

private theorem plain_of_isTabMark (h : IsTabMark ts) :
    ∀ t ∈ ts, ¬ IsKeyword t ∧ ¬ IsRejection t := by
  rcases h with rfl | ⟨t, rfl, hkind⟩
  · simp
  · simp [IsKeyword, IsRejection, hkind, TokenKind.isBlock, TokenKind.isDirective]

private theorem plain_of_isMove (h : IsMove ts) : ∀ t ∈ ts, ¬ IsKeyword t ∧ ¬ IsRejection t := by
  obtain ⟨n, mark, rfl, hkind⟩ := h
  intro t ht
  rw [List.eq_of_mem_replicate ht]
  rcases hkind with he | he <;>
    simp [IsKeyword, IsRejection, he, TokenKind.isBlock, TokenKind.isDirective]

private theorem plain_of_text {t : Token} (h : t.kind = .text) :
    ¬ IsKeyword t ∧ ¬ IsRejection t := by
  simp [IsKeyword, IsRejection, h, TokenKind.isBlock, TokenKind.isDirective]

private theorem ofTokens_of_plain {t : Token} (h : ∀ u ∈ ts, ¬ IsKeyword u ∧ ¬ IsRejection u)
    (hlast : ts.getLast? = some t) :
    ofTokens ts = if t.text = "" then emptyText else text := by
  have hkeyword : ¬ ∃ u ∈ ts, IsKeyword u := fun ⟨u, hu, hk⟩ => (h u hu).1 hk
  have hrejection : ¬ ∃ u ∈ ts, IsRejection u := fun ⟨u, hu, hr⟩ => (h u hu).2 hr
  rw [ofTokens, if_neg hkeyword, if_neg hrejection, hlast]

/-- The shape of tokens can be read off them, so they have no other one. -/
theorem ofTokens_of_fits {shape : LineShape} (h : shape.Fits line ts) : ofTokens ts = shape := by
  cases shape with
  | nothing =>
    obtain rfl : ts = [] := h
    rfl
  | emptyText =>
    obtain ⟨-, t, rfl, hkind, htext⟩ := h
    have hplain : ∀ u ∈ [t], ¬ IsKeyword u ∧ ¬ IsRejection u := by
      simpa using plain_of_text hkind
    rw [ofTokens_of_plain hplain List.getLast?_singleton, if_pos htext]
  | rejected =>
    obtain ⟨tabs, mark, rfl, htabs, hmark⟩ := h
    have hkeyword : ¬ ∃ t ∈ tabs ++ [mark], IsKeyword t := by
      rintro ⟨t, ht, hkey⟩
      rcases List.mem_append.mp ht with ht | ht
      · exact (plain_of_isTabMark htabs t ht).1 hkey
      · rw [List.mem_singleton.mp ht] at hkey
        rcases hmark with he | he <;>
          simp [IsKeyword, he, TokenKind.isBlock, TokenKind.isDirective] at hkey
    rw [ofTokens, if_neg hkeyword, if_pos ⟨mark, by simp, hmark⟩]
  | keyword =>
    obtain ⟨tabs, marks, key, words, rfl, -, -, hkey, -⟩ := h
    rw [ofTokens, if_pos ⟨key, by simp, hkey⟩]
  | text =>
    obtain ⟨tabs, marks, t, rfl, htabs, hmarks, ht⟩ := h
    have hplain : ∀ u ∈ tabs ++ (marks ++ [t]), ¬ IsKeyword u ∧ ¬ IsRejection u := by
      intro u hu
      simp only [List.mem_append, List.mem_singleton] at hu
      rcases hu with hu | hu | rfl
      · exact plain_of_isTabMark htabs u hu
      · exact plain_of_isMove hmarks u hu
      · exact plain_of_text ht.kind
    have hlast : (tabs ++ (marks ++ [t])).getLast? = some t := by simp
    rw [ofTokens_of_plain hplain hlast, if_neg ht.nonempty]

end LineShape

/-! ### Lines -/

variable {unit : Int} {m : Margin} {p : Place}

private theorem isMove_of_moved {margin column : Nat} {marks : List Token}
    (h : shift unit margin p column = .moved marks) : IsMove marks :=
  moved_eq_replicate h

/-- A text that starts in the spaces of its line, or right behind them. -/
theorem isLineText_textToken {column : Nat} (hpos : 1 ≤ column)
    (hle : column ≤ startColumn p.line) (hline : lineContent p.line ≠ []) :
    IsLineText p.line (textToken p column) := by
  obtain ⟨n, rfl⟩ : ∃ n, column = n + 1 := ⟨column - 1, (Nat.sub_add_cancel hpos).symm⟩
  have hsplit := line_eq_spaces (Nat.le_sub_one_of_lt hle)
  have htext : (textToken p (n + 1)).text = String.ofList (p.line.drop n) := rfl
  refine ⟨rfl, fun hempty => hline ?_, n, rfl, by rwa [htext, String.toList_ofList]⟩
  have hdrop : p.line.drop n = [] := by simpa [htext] using hempty
  rw [hdrop, List.append_nil] at hsplit
  rw [hsplit, ← List.append_nil (List.replicate n ' '), lineContent_spaces]
  rfl

/-- What follows the first word of a text ends it. -/
theorem firstWord_rest_suffix (cs : List Char) : (Text.firstWord cs).2 <:+ cs :=
  ((List.dropWhile_suffix _).trans (List.dropWhile_suffix _)).trans (List.dropWhile_suffix _)

private theorem exists_words {content : List Char} (hcontent : content <:+ p.line)
    (kind : TokenKind) (column : Nat) (word : List Char) :
    ∃ key words, keywordTokens p column kind word (Text.firstWord content).2 = key :: words ∧
      key.kind = kind ∧ IsWords p.line words := by
  refine ⟨_, _, rfl, rfl, ?_⟩
  split
  · exact .inl rfl
  · next hne =>
    refine .inr ⟨_, rfl, rfl, ?_, ?_⟩
    · simpa [Place.token] using (firstWord_rest_suffix content).trans hcontent
    · simpa [Place.token] using isNameText_rest hne

/-- The tokens of a line's content have a shape, behind a tab mark as without one. -/
theorem ContentReading.exists_fits {content : List Char} {r : Margin × List Token}
    (h : ContentReading unit m p (startColumn p.line) content r) (hm : 1 ≤ m.column)
    (hline : lineContent p.line ≠ []) (hcontent : content <:+ p.line) {tabs : List Token}
    (htabs : IsTabMark tabs) : ∃ shape : LineShape, shape.Fits p.line (tabs ++ r.2) := by
  cases h with
  | rejected hshift => exact ⟨.rejected, tabs, _, rfl, htabs, kind_of_rejected hshift⟩
  | @keyword kind marks hkind hshift =>
    obtain ⟨key, words, htokens, hkey, hwords⟩ :=
      exists_words hcontent kind (startColumn p.line) (Text.firstWord content).1
    refine ⟨.keyword, tabs, marks, key, words, by rw [htokens], htabs, isMove_of_moved hshift, ?_,
      hwords⟩
    rw [IsKeyword, hkey]
    exact Keyword.keyword?_of_classify? hkind
  | kept _ _ hlt =>
    exact ⟨.text, tabs, [], _, rfl, htabs, isMove_nil,
      isLineText_textToken hm (Nat.le_of_lt hlt) hline⟩
  | text _ _ hshift =>
    exact ⟨.text, tabs, _, _, rfl, htabs, isMove_of_moved hshift,
      isLineText_textToken (startColumn_pos p.line) (Nat.le_refl _) hline⟩

/-- However a line is read, its tokens have exactly one shape. -/
theorem LineReading.existsUnique_fits {r : Margin × List Token} (h : LineReading unit m p r)
    (hm : 1 ≤ m.column) : ∃! shape : LineShape, shape.Fits p.line r.2 := by
  have hfits : ∃ shape : LineShape, shape.Fits p.line r.2 := by
    have hsuffix : lineContent p.line <:+ p.line := List.dropWhile_suffix _
    cases h with
    | blank hline =>
      split
      · refine ⟨.emptyText, fun c hc => ?_, _, rfl, rfl, rfl⟩
        rw [line_eq p.line, hline, List.append_nil] at hc
        exact List.eq_of_mem_replicate hc
      · exact ⟨.nothing, rfl⟩
    | comment => exact ⟨.nothing, rfl⟩
    | tab hline hread =>
      have hcontent := (List.suffix_cons _ _).trans (hline ▸ hsuffix)
      exact hread.exists_fits hm (by simp [hline]) hcontent (.inr ⟨_, rfl, rfl⟩)
    | content hline _ _ hread =>
      exact hread.exists_fits hm (by simp [hline]) (hline ▸ hsuffix) (.inl rfl)
  obtain ⟨shape, hshape⟩ := hfits
  refine ⟨shape, hshape, fun other hother => ?_⟩
  rw [← LineShape.ofTokens_of_fits hshape, LineShape.ofTokens_of_fits hother]

/-! ### Outlines -/

/-- The tokens of one line of an outline are those that reading the line gives, from some margin. -/
theorem exists_reading_of_line (width : UInt64) (fileName : String) {source : String} {i : Nat}
    {line : List Char} (h : (Text.lines source.toList)[i]? = some line) :
    ∃ m r, 1 ≤ Margin.column m ∧
      LineReading (signedUnit width) m { fileName, number := i + 1, line } r ∧
      (tokens width fileName source).filter (·.line = i + 1) = r.2 := by
  obtain ⟨before, after, rfl, hlines, -⟩ := exists_around h
  obtain ⟨htokens, hahead, hown, hbehind⟩ := tokens_around width fileName hlines
  let m := (readLines (signedUnit width) fileName {} 1 before).1
  let p : Place := { fileName, number := before.length + 1, line }
  have hm : 1 ≤ m.column := by
    refine readLines_invariant (fun _ m _ => 1 ≤ m.column) (Nat.le_refl 1) ?_
    intro line _ number seen m ts r hm hread
    exact hread.column_pos hm
  refine ⟨m, readLine (signedUnit width) m p, hm, readLine_reading _ m p, ?_⟩
  rw [htokens, List.filter_append, List.filter_append]
  rw [List.filter_eq_nil_iff.mpr fun t ht => by simpa using Nat.ne_of_lt (hahead t ht),
    List.filter_eq_self.mpr fun t ht => by simpa using hown t ht, List.nil_append,
    List.filter_eq_nil_iff.mpr, List.append_nil]
  intro t ht
  obtain ⟨u, hu, rfl⟩ := List.mem_map.mp ht
  simpa [Token.raised] using Nat.ne_of_gt (Nat.lt_succ_of_le (hbehind u hu))

/-- A token of an outline that closes no block and does not end it stands on one of the lines. -/
theorem exists_line_of_keywordText {width : UInt64} {fileName source : String} {t : Token}
    (ht : t ∈ tokens width fileName source) (hkind : t.kind = .keywordText) :
    ∃ i line, t.line = i + 1 ∧ (Text.lines source.toList)[i]? = some line := by
  rw [tokens_eq_closing] at ht
  rcases List.mem_append.mp ht with ht | ht
  · obtain ⟨hpos, hlt⟩ := line_of_mem_readLines ht
    obtain ⟨i, hi⟩ := Nat.exists_eq_add_of_le' hpos
    exact ⟨i, _, hi, List.getElem?_eq_getElem (by omega)⟩
  · exact absurd hkind (mem_closing ht).2

/-- The words of a keyword line stand right behind its keyword. -/
theorem exists_keyword_before {width : UInt64} {fileName source : String}
    {before rest : List Token} {t : Token}
    (h : tokens width fileName source = before ++ t :: rest) (hkind : t.kind = .keywordText) :
    ∃ key, before.getLast? = some key ∧ IsKeyword key ∧ key.line = t.line := by
  have hguarded : Guarded (·.kind = .keywordText) IsKeyword (before ++ t :: rest) := by
    rw [← h, tokens_eq_content]
    exact (guarded_content width fileName source).append (.of_forall (by simp [Token.endOfFile]))
  obtain ⟨key, hlast, hkey⟩ := hguarded.host hkind
  refine ⟨key, hlast, hkey, ?_⟩
  obtain ⟨init, rfl⟩ := List.getLast?_eq_some_iff.mp hlast
  have hascending := ascending_tokens width fileName source
  rw [h] at hascending
  obtain ⟨hinit, -, hup⟩ := List.pairwise_append.mp hascending
  have hle : key.line ≤ t.line := hup key (by simp) t (by simp)
  by_contra hne
  -- otherwise the line of the words starts with them, and no line does
  have hbefore : (init ++ [key]).filter (·.line = t.line) = [] := by
    refine List.filter_eq_nil_iff.mpr fun a ha => ?_
    have hkeyLine : a.line ≤ key.line := by
      rcases List.mem_append.mp ha with ha | ha
      · exact (List.pairwise_append.mp hinit).2.2 a ha key (by simp)
      · rw [List.mem_singleton.mp ha]
    simpa using (by omega : a.line ≠ t.line)
  have hmem : t ∈ tokens width fileName source := by simp [h]
  obtain ⟨i, line, hi, hline⟩ := exists_line_of_keywordText hmem hkind
  obtain ⟨m, r, -, hread, hown⟩ := exists_reading_of_line width fileName hline
  rw [h, ← hi, List.filter_append, hbefore, List.nil_append,
    List.filter_cons_of_pos (by simp)] at hown
  exact hread.guarded.head t (by simp [← hown]) hkind

/-- The tokens of an outline are a picture of its lines. Reading the outline by cuts at bytes never
fails, whatever characters it has and whatever the width of a level is, and gives its tokens. The
tokens of a line carry the line and have exactly one shape. And the words of a keyword line stand
right behind the keyword of the same line. -/
theorem line_image (width : UInt64) (fileName source : String) :
    cutTokens? width fileName source = some (tokens width fileName source) ∧
      (∀ i line, (Text.lines source.toList)[i]? = some line →
        (∀ t ∈ tokens width fileName source, t.line = i + 1 → t.rawLine = String.ofList line) ∧
          ∃! shape : LineShape,
            shape.Fits line ((tokens width fileName source).filter (·.line = i + 1))) ∧
      ∀ before t rest, tokens width fileName source = before ++ t :: rest →
        t.kind = .keywordText →
          ∃ key, before.getLast? = some key ∧ IsKeyword key ∧ key.line = t.line := by
  refine ⟨cutTokens?_eq width fileName source, fun i line hline => ?_,
    fun before t rest h hkind => exists_keyword_before h hkind⟩
  obtain ⟨m, r, hm, hread, hown⟩ := exists_reading_of_line width fileName hline
  rw [hown]
  refine ⟨fun t ht hnumber => ?_, hread.existsUnique_fits hm⟩
  have hmem : t ∈ r.2 := hown ▸ List.mem_filter.mpr ⟨ht, decide_eq_true hnumber⟩
  obtain ⟨kind, text, column, rfl⟩ := hread.eq_token t hmem
  rfl

/-- An outline with characters of several bytes: a blank of three bytes behind its keyword, a text
behind a tab, a line of spaces, and a text that keeps its extra spaces. -/
def wideOutline : String := "Role:\u3000\u00e9 1\n  \t\u00df\n    \n      \u65e5\u672c\n"

/-- The words behind the keyword of that outline. -/
def wideWords : Token where
  kind := .keywordText
  text := "\u00e9 1"
  rawLine := "Role:\u3000\u00e9 1"
  fileName := "plan"
  line := 1
  column := 7

/-- Read with the greatest width for a level, which wraps to a negative one, no cut through that
outline fails. Its last line is a text, cut where the text before it starts, and its words stand
behind their keyword. -/
theorem line_image_wide :
    cutTokens? 0xffffffffffffffff "plan" wideOutline =
        some (tokens 0xffffffffffffffff "plan" wideOutline) ∧
      (Text.lines wideOutline.toList)[3]? = some "      \u65e5\u672c".toList ∧
      (∃! shape : LineShape, shape.Fits "      \u65e5\u672c".toList
        ((tokens 0xffffffffffffffff "plan" wideOutline).filter (·.line = 4))) ∧
      LineShape.text.Fits "      \u65e5\u672c".toList
        ((tokens 0xffffffffffffffff "plan" wideOutline).filter (·.line = 4)) ∧
      tokens 0xffffffffffffffff "plan" wideOutline =
        (tokens 0xffffffffffffffff "plan" wideOutline).take 1 ++
          wideWords :: (tokens 0xffffffffffffffff "plan" wideOutline).drop 2 ∧
      ∃ key, ((tokens 0xffffffffffffffff "plan" wideOutline).take 1).getLast? = some key ∧
        IsKeyword key ∧ key.line = wideWords.line := by
  have hline : (Text.lines wideOutline.toList)[3]? = some "      \u65e5\u672c".toList := by
    decide +kernel
  have hown : (tokens 0xffffffffffffffff "plan" wideOutline).filter (·.line = 4) =
      [{ kind := .text, text := "    \u65e5\u672c", rawLine := "      \u65e5\u672c",
         fileName := "plan", line := 4, column := 3 }] := by decide +kernel
  have hwords : tokens 0xffffffffffffffff "plan" wideOutline =
      (tokens 0xffffffffffffffff "plan" wideOutline).take 1 ++
        wideWords :: (tokens 0xffffffffffffffff "plan" wideOutline).drop 2 := by decide +kernel
  obtain ⟨hcut, hlines, hkeywords⟩ := line_image 0xffffffffffffffff "plan" wideOutline
  refine ⟨hcut, hline, (hlines 3 _ hline).2, ?_, hwords, hkeywords _ _ _ hwords rfl⟩
  rw [hown]
  exact ⟨[], [], _, rfl, .inl rfl, isMove_nil, rfl, by decide, 2, rfl, by decide⟩

end PromptOutline.Outline
