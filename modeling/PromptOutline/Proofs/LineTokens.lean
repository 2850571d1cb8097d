import PromptOutline.Proofs.Neighbours
import PromptOutline.Token.Outline

/-!
# What one line of an outline gives

`LineReading` lists everything that reading a line can do: the four kinds of lines, and for a line
with content the rejected, the keyword, the kept and the plain text line. Facts about the tokens
of an outline are read off these cases and carried over all its lines by `readLines`.
-/

namespace PromptOutline.Outline

/-! ### Leading spaces -/

/-- The column that the content of a line starts at. -/
def startColumn (line : List Char) : Nat := (line.takeWhile (· == ' ')).length + 1

/-- The content of a line: what follows its leading spaces. -/
def lineContent (line : List Char) : List Char := line.dropWhile (· == ' ')

/-- Spaces in front of a line are not part of its content. -/
theorem lineContent_spaces (n : Nat) (cs : List Char) :
    lineContent (List.replicate n ' ' ++ cs) = lineContent cs :=
  List.dropWhile_append_of_pos (by simp)

/-- Spaces in front of a line move its content to the right. -/
theorem startColumn_spaces (n : Nat) (cs : List Char) :
    startColumn (List.replicate n ' ' ++ cs) = n + startColumn cs := by
  rw [startColumn, List.takeWhile_append_of_pos (by simp), List.length_append,
    List.length_replicate, startColumn, Nat.add_assoc]

/-- A line is its leading spaces and its content. -/
theorem line_eq (line : List Char) :
    line = List.replicate (startColumn line - 1) ' ' ++ lineContent line := by
  have hspaces : line.takeWhile (· == ' ') = List.replicate (startColumn line - 1) ' ' := by
    apply List.eq_replicate_iff.mpr
    refine ⟨rfl, fun c hc => ?_⟩
    simpa using List.all_eq_true.mp List.all_takeWhile c hc
  rw [← hspaces]
  exact List.takeWhile_append_dropWhile.symm

/-- The content of a line does not start with a space. -/
theorem lineContent_head {line rest : List Char} {c : Char} (h : lineContent line = c :: rest) :
    c ≠ ' ' := by
  have hhead := List.head?_dropWhile_not (· == ' ') line
  rw [← lineContent, h] at hhead
  simpa using hhead

/-- A line that does not start with a space is its own content. -/
theorem lineContent_of_head {c : Char} (hc : c ≠ ' ') (rest : List Char) :
    lineContent (c :: rest) = c :: rest :=
  List.dropWhile_cons_of_neg (by simpa using hc)

/-- The content of a line is its own content. -/
theorem lineContent_lineContent (line : List Char) :
    lineContent (lineContent line) = lineContent line := by
  cases h : lineContent line with
  | nil => rfl
  | cons c rest => exact lineContent_of_head (lineContent_head h) rest

/-- A line without some of the spaces in front keeps the others. -/
theorem drop_eq_spaces {line : List Char} {n : Nat} (h : n ≤ startColumn line - 1) :
    line.drop n = List.replicate (startColumn line - 1 - n) ' ' ++ lineContent line := by
  conv_lhs => rw [line_eq line]
  rw [List.drop_append_of_le_length (by simpa using h), List.drop_replicate]

/-- A line without the spaces in front is its content. -/
theorem drop_startColumn (line : List Char) :
    line.drop (startColumn line - 1) = lineContent line := by
  rw [drop_eq_spaces (Nat.le_refl _), Nat.sub_self, List.replicate_zero, List.nil_append]

/-! ### The ways to read a line -/

/-- The ways to read the content of a line that starts at a column. -/
inductive ContentReading (unit : Int) (m : Margin) (p : Place) (column : Nat)
    (content : List Char) : Margin × List Token → Prop where
  /-- The line starts at a distance from the margin that is no whole number of units. -/
  | rejected {mark : Token} (hshift : shift unit m.column p column = .rejected mark)
      (hplain : m.inText = true → column ≤ m.column ∨
        (Keyword.classify? (Text.firstWord content).1).isSome) :
      ContentReading unit m p column content (m, [mark])
  | keyword {kind : TokenKind} {marks : List Token}
      (hkind : Keyword.classify? (Text.firstWord content).1 = some kind)
      (hshift : shift unit m.column p column = .moved marks) :
      ContentReading unit m p column content
        ({ column, inText := false }, marks ++
          keywordTokens p column kind (Text.firstWord content).1 (Text.firstWord content).2)
  /-- A deeper line in a run of text lines keeps its extra spaces. -/
  | kept (hkind : Keyword.classify? (Text.firstWord content).1 = none) (hin : m.inText = true)
      (hlt : m.column < column) :
      ContentReading unit m p column content (m, [textToken p m.column])
  | text {marks : List Token} (hkind : Keyword.classify? (Text.firstWord content).1 = none)
      (hplain : m.inText = true → column ≤ m.column)
      (hshift : shift unit m.column p column = .moved marks) :
      ContentReading unit m p column content
        ({ column, inText := true }, marks ++ [textToken p column])

/-- The ways to read a line. -/
inductive LineReading (unit : Int) (m : Margin) (p : Place) : Margin × List Token → Prop where
  | blank (hline : lineContent p.line = []) :
      LineReading unit m p (m, if m.inText then [p.token .text "" m.column] else [])
  | comment {rest : List Char} (hline : lineContent p.line = '#' :: rest) :
      LineReading unit m p (m, [])
  | tab {rest : List Char} {r : Margin × List Token} (hline : lineContent p.line = '\t' :: rest)
      (hread : ContentReading unit m p (startColumn p.line) rest r) :
      LineReading unit m p (r.1, p.token .tab "[Tab]" (startColumn p.line) :: r.2)
  | content {c : Char} {rest : List Char} {r : Margin × List Token}
      (hline : lineContent p.line = c :: rest) (hcomment : c ≠ '#') (htab : c ≠ '\t')
      (hread : ContentReading unit m p (startColumn p.line) (c :: rest) r) :
      LineReading unit m p r

private theorem readContent_reading (unit : Int) (m : Margin) (p : Place) (column : Nat)
    (content : List Char) :
    ContentReading unit m p column content (readContent unit m p column content) := by
  unfold readContent
  cases hkind : Keyword.classify? (Text.firstWord content).1 with
  | some kind =>
    simp only [hkind, readKeyword]
    cases hshift : shift unit m.column p column with
    | rejected mark => exact .rejected hshift fun _ => .inr (by rw [hkind]; rfl)
    | moved marks => exact .keyword hkind hshift
  | none =>
    simp only [hkind, readText]
    by_cases hclamp : m.inText = true ∧ m.column < column
    · simp only [hclamp.1, hclamp.2, decide_true, Bool.and_self, if_true]
      exact .kept hkind hclamp.1 hclamp.2
    · have hplain : m.inText = true → column ≤ m.column := by
        intro hin
        exact Nat.le_of_not_lt fun hlt => hclamp ⟨hin, hlt⟩
      have hcond : (m.inText && decide (m.column < column)) = false := by
        simpa using hplain
      simp only [hcond, Bool.false_eq_true, if_false]
      cases hshift : shift unit m.column p column with
      | rejected mark => exact .rejected hshift fun hin => .inl (hplain hin)
      | moved marks => exact .text hkind hplain hshift

/-- A line is read in one of the ways in which lines are read. -/
theorem readLine_reading (unit : Int) (m : Margin) (p : Place) :
    LineReading unit m p (readLine unit m p) := by
  unfold readLine
  split
  · next hline => exact .blank hline
  · next hline => exact .comment hline
  · next hline => exact .tab hline (readContent_reading unit m p _ _)
  · next hblank hcomment htab =>
    cases hline : p.line.dropWhile (· == ' ') with
    | nil => exact absurd hline hblank
    | cons c rest =>
      refine .content hline ?_ ?_ (readContent_reading unit m p _ _)
      · rintro rfl
        exact hcomment rest hline
      · rintro rfl
        exact htab rest hline

private theorem readLines_keeps {unit : Int} {fileName : String}
    {Inv : List (List Char) → Margin → List Token → Prop} {lines : List (List Char)}
    (hline : ∀ line ∈ lines, ∀ number seen m ts r, Inv seen m ts →
      LineReading unit m { fileName, number, line } r → Inv (seen ++ [line]) r.1 (ts ++ r.2))
    {m : Margin} {seen : List (List Char)} {ts : List Token} (number : Nat) (h : Inv seen m ts) :
    Inv (seen ++ lines) (readLines unit fileName m number lines).1
      (ts ++ (readLines unit fileName m number lines).2) := by
  induction lines generalizing m seen ts number with
  | nil => simpa [readLines] using h
  | cons line rest ih =>
    have hfirst := hline line (by simp) number seen m ts _ h (readLine_reading unit m _)
    have hrest := ih (fun l hl => hline l (by simp [hl])) (number + 1) hfirst
    simpa only [readLines, List.append_assoc, List.cons_append, List.nil_append] using hrest

/-- What holds before all lines and is kept by every line holds behind them. -/
theorem readLines_invariant (Inv : List (List Char) → Margin → List Token → Prop) {unit : Int}
    {fileName : String} {m : Margin} {number : Nat} {lines : List (List Char)} (h : Inv [] m [])
    (hline : ∀ line ∈ lines, ∀ number seen m ts r, Inv seen m ts →
      LineReading unit m { fileName, number, line } r → Inv (seen ++ [line]) r.1 (ts ++ r.2)) :
    Inv lines (readLines unit fileName m number lines).1
      (readLines unit fileName m number lines).2 :=
  readLines_keeps hline number h

/-! ### Kinds -/

/-- The marks of a line are copies of one mark. -/
theorem moved_eq_replicate {unit : Int} {margin : Nat} {p : Place} {column : Nat}
    {marks : List Token} (h : shift unit margin p column = .moved marks) :
    ∃ n mark, marks = List.replicate n mark ∧ (mark.kind = .indent ∨ mark.kind = .outdent) := by
  unfold shift at h
  dsimp only at h
  split at h
  · cases h
    exact ⟨0, p.token .indent "[Indent]" column, rfl, .inl rfl⟩
  · split at h
    · cases h
    · cases h
      refine ⟨_, _, rfl, ?_⟩
      split
      · exact .inl rfl
      · exact .inr rfl

/-- The margin is moved by indentations or outdentations. -/
theorem kinds_of_moved {unit : Int} {margin : Nat} {p : Place} {column : Nat} {marks : List Token}
    (h : shift unit margin p column = .moved marks) :
    ∀ t ∈ marks, t.kind = .indent ∨ t.kind = .outdent := by
  obtain ⟨n, mark, rfl, hkind⟩ := moved_eq_replicate h
  intro t ht
  rwa [List.eq_of_mem_replicate ht]

/-- A line is rejected by a bad mark. -/
theorem kind_of_rejected {unit : Int} {margin : Nat} {p : Place} {column : Nat} {mark : Token}
    (h : shift unit margin p column = .rejected mark) :
    mark.kind = .badIndent ∨ mark.kind = .badOutdent := by
  unfold shift at h
  dsimp only at h
  split at h
  · cases h
  · split at h
    · cases h
      split
      · exact .inl rfl
      · exact .inr rfl
    · cases h

/-- Whether the text of a keyword line may follow a token. -/
def IsKeyword (t : Token) : Prop := t.kind.isBlock = true ∨ t.kind.isDirective = true

private theorem guarded_keywordTokens {word rest : List Char} {kind : TokenKind} (p : Place)
    (column : Nat) (hkind : kind.isBlock = true ∨ kind.isDirective = true) :
    Guarded (·.kind = .keywordText) IsKeyword (keywordTokens p column kind word rest) := by
  have hne : kind ≠ .keywordText := by
    rintro rfl
    simp [TokenKind.isBlock, TokenKind.isDirective] at hkind
  unfold keywordTokens
  split
  · exact .of_forall (by simpa [Place.token] using hne)
  · have hone (text : String) :
        Guarded (·.kind = .keywordText) IsKeyword [p.token kind text column] :=
      .of_forall (by simpa [Place.token] using hne)
    exact (hone _).append_cons (by simp) (by simpa [IsKeyword, Place.token] using hkind) .nil

/-- The tokens of a keyword line are the keyword and a name. -/
theorem kinds_of_keywordTokens {word rest : List Char} {kind : TokenKind} {p : Place}
    {column : Nat} {t : Token} (ht : t ∈ keywordTokens p column kind word rest) :
    t.kind = kind ∨ t.kind = .keywordText := by
  unfold keywordTokens at ht
  split at ht
  · exact .inl (by rw [List.mem_singleton.mp ht]; rfl)
  · simp only [List.mem_cons, List.not_mem_nil, or_false] at ht
    rcases ht with rfl | rfl
    · exact .inl rfl
    · exact .inr rfl

private theorem all_not_isBlank {kind : TokenKind} (hkind : kind.isBlock = true) :
    (kind.name.toList ++ [':']).all (!Text.isBlank ·) = true := by
  cases kind with
  | role | context | action => decide +kernel
  | _ => cases hkind

/-- A keyword with its colon is a word, and it starts a line like no comment and no tab. -/
theorem word_of_isBlock {kind : TokenKind} (hkind : kind.isBlock = true) :
    (∀ c ∈ kind.name.toList ++ [':'], Text.isBlank c = false) ∧
      Keyword.classify? (kind.name.toList ++ [':']) = some kind ∧
      ∃ c rest, kind.name.toList = c :: rest ∧ c ≠ ' ' ∧ c ≠ '#' ∧ c ≠ '\t' := by
  refine ⟨fun c hc => ?_, ?_⟩
  · simpa using List.all_eq_true.mp (all_not_isBlank hkind) c hc
  · cases kind with
    | role | context | action =>
      exact ⟨by decide +kernel, _, _, rfl, by decide, by decide, by decide⟩
    | _ => cases hkind

/-- A keyword is of no other kind of a line's tokens. -/
theorem ne_of_keyword {cs : List Char} {kind : TokenKind}
    (h : Keyword.classify? cs = some kind) :
    kind ≠ .keywordText ∧ kind ≠ .text ∧ kind ≠ .indent ∧ kind ≠ .outdent := by
  have hkey := Keyword.keyword?_of_classify? h
  refine ⟨?_, ?_, ?_, ?_⟩ <;> rintro rfl <;>
    simp [TokenKind.isBlock, TokenKind.isDirective] at hkey

/-- Kinds of tokens that lines give rise to. -/
def isLineKind (k : TokenKind) : Bool := k != .none && k != .endOfFile

private theorem isLineKind_of_keyword {kind : TokenKind}
    (h : kind.isBlock = true ∨ kind.isDirective = true) : isLineKind kind = true := by
  cases kind <;> simp_all [TokenKind.isBlock, TokenKind.isDirective, isLineKind]

private theorem ContentReading.kinds {unit : Int} {m : Margin} {p : Place} {column : Nat}
    {content : List Char} {r : Margin × List Token} (h : ContentReading unit m p column content r) :
    ∀ t ∈ r.2, isLineKind t.kind = true := by
  intro t ht
  cases h with
  | rejected hshift =>
    rw [List.mem_singleton.mp ht]
    rcases kind_of_rejected hshift with he | he <;> rw [he] <;> rfl
  | keyword hkind hshift =>
    rcases List.mem_append.mp ht with ht | ht
    · rcases kinds_of_moved hshift t ht with he | he <;> rw [he] <;> rfl
    · rcases kinds_of_keywordTokens ht with he | he
      · rw [he]
        exact isLineKind_of_keyword (Keyword.keyword?_of_classify? hkind)
      · rw [he]
        rfl
  | kept =>
    rw [List.mem_singleton.mp ht]
    rfl
  | text _ _ hshift =>
    rcases List.mem_append.mp ht with ht | ht
    · rcases kinds_of_moved hshift t ht with he | he <;> rw [he] <;> rfl
    · rw [List.mem_singleton.mp ht]
      rfl

private theorem LineReading.kinds {unit : Int} {m : Margin} {p : Place} {r : Margin × List Token}
    (h : LineReading unit m p r) : ∀ t ∈ r.2, isLineKind t.kind = true := by
  intro t ht
  cases h with
  | blank =>
    simp only [List.mem_ite_nil_right, List.mem_singleton] at ht
    rw [ht.2]
    rfl
  | comment => cases ht
  | tab _ hread =>
    rcases List.mem_cons.mp ht with rfl | ht
    · rfl
    · exact hread.kinds t ht
  | content _ _ _ hread => exact hread.kinds t ht

/-- In the tokens of a line's content, the text of a keyword line stands right behind its keyword.
-/
theorem ContentReading.guarded {unit : Int} {m : Margin} {p : Place} {column : Nat}
    {content : List Char} {r : Margin × List Token} (h : ContentReading unit m p column content r) :
    Guarded (·.kind = .keywordText) IsKeyword r.2 := by
  have hmarks {marks : List Token} (hshift : shift unit m.column p column = .moved marks) :
      Guarded (·.kind = .keywordText) IsKeyword marks := by
    apply Guarded.of_forall
    intro t ht
    rcases kinds_of_moved hshift t ht with he | he <;> simp [he]
  cases h with
  | rejected hshift =>
    apply Guarded.of_forall
    intro t ht
    rw [List.mem_singleton.mp ht]
    rcases kind_of_rejected hshift with he | he <;> simp [he]
  | keyword hkind hshift =>
    exact (hmarks hshift).append
      (guarded_keywordTokens p column (Keyword.keyword?_of_classify? hkind))
  | kept => exact .of_forall (by simp [textToken, Place.token])
  | text _ _ hshift => exact (hmarks hshift).append (.of_forall (by simp [textToken, Place.token]))

/-- A name among the tokens of a line stands behind a keyword. -/
theorem LineReading.guarded {unit : Int} {m : Margin} {p : Place} {r : Margin × List Token}
    (h : LineReading unit m p r) : Guarded (·.kind = .keywordText) IsKeyword r.2 := by
  cases h with
  | blank => exact .of_forall (by simp [Place.token])
  | comment => exact .nil
  | tab _ hread =>
    have htab : Guarded (·.kind = .keywordText) IsKeyword
        [p.token .tab "[Tab]" (startColumn p.line)] := .of_forall (by simp [Place.token])
    exact htab.append hread.guarded
  | content _ _ _ hread => exact hread.guarded

/-! ### Texts -/

/-- Whether a token carries text of its line. -/
def CarriesText (t : Token) : Prop := t.kind = .text ∨ t.kind = .keywordText

private theorem not_carriesText_of_moved {unit : Int} {margin : Nat} {p : Place} {column : Nat}
    {marks : List Token} (h : shift unit margin p column = .moved marks) :
    ∀ t ∈ marks, ¬ CarriesText t := by
  intro t ht
  rcases kinds_of_moved h t ht with he | he <;> simp [CarriesText, he]

private theorem firstWord_rest_subset (cs : List Char) : (Text.firstWord cs).2 ⊆ cs := by
  intro c hc
  have hbody := List.dropWhile_subset _ (List.dropWhile_subset _ hc)
  exact List.dropWhile_subset _ hbody

private theorem ContentReading.texts {unit : Int} {m : Margin} {p : Place} {column : Nat}
    {content : List Char} {r : Margin × List Token} (h : ContentReading unit m p column content r)
    (hcontent : content ⊆ p.line) :
    ∀ t ∈ r.2, CarriesText t → t.text.toList ⊆ p.line := by
  intro t ht hcarries
  have htext (column : Nat) : (textToken p column).text.toList ⊆ p.line := by
    simpa [textToken, Place.token] using List.drop_subset (column - 1) p.line
  cases h with
  | rejected hshift =>
    rw [List.mem_singleton.mp ht] at hcarries
    rcases kind_of_rejected hshift with he | he <;> simp [CarriesText, he] at hcarries
  | keyword hkind hshift =>
    rcases List.mem_append.mp ht with ht | ht
    · exact absurd hcarries (not_carriesText_of_moved hshift t ht)
    · rcases List.mem_cons.mp ht with rfl | ht
      · obtain ⟨hname, hplain, -⟩ := ne_of_keyword hkind
        exact absurd hcarries (by simp [CarriesText, Place.token, hname, hplain])
      · simp only [List.mem_ite_nil_left, List.mem_singleton] at ht
        rw [ht.2]
        have hrest : (Text.firstWord content).2 ⊆ p.line := fun c hc =>
          hcontent (firstWord_rest_subset content hc)
        simpa [Place.token] using hrest
  | kept =>
    rw [List.mem_singleton.mp ht]
    exact htext m.column
  | text _ _ hshift =>
    rcases List.mem_append.mp ht with ht | ht
    · exact absurd hcarries (not_carriesText_of_moved hshift t ht)
    · rw [List.mem_singleton.mp ht]
      exact htext column

/-- What a line gives as text stands in the line. -/
theorem LineReading.texts {unit : Int} {m : Margin} {p : Place} {r : Margin × List Token}
    (h : LineReading unit m p r) : ∀ t ∈ r.2, CarriesText t → t.text.toList ⊆ p.line := by
  intro t ht hcarries
  have hcontent : lineContent p.line ⊆ p.line := List.dropWhile_subset _
  cases h with
  | blank =>
    simp only [List.mem_ite_nil_right, List.mem_singleton] at ht
    rw [ht.2]
    exact List.nil_subset _
  | comment => cases ht
  | tab hline hread =>
    rw [hline] at hcontent
    rcases List.mem_cons.mp ht with rfl | ht
    · simp [CarriesText, Place.token] at hcarries
    · exact hread.texts (List.subset_of_cons_subset hcontent) t ht hcarries
  | content hline _ _ hread =>
    rw [hline] at hcontent
    exact hread.texts hcontent t ht hcarries

/-! ### Lines that are laid out well -/

/-- Kinds of marks for lines that break the layout rules. -/
def isBadMark (k : TokenKind) : Bool := k == .badIndent || k == .badOutdent || k == .tab

/-- The ways to read a line that breaks no layout rule. -/
inductive GoodReading (unit : Int) (m : Margin) (p : Place) : Margin × List Token → Prop where
  | blank (hline : lineContent p.line = []) :
      GoodReading unit m p (m, if m.inText then [p.token .text "" m.column] else [])
  | comment {rest : List Char} (hline : lineContent p.line = '#' :: rest) :
      GoodReading unit m p (m, [])
  | keyword {c : Char} {rest : List Char} {kind : TokenKind} {marks : List Token}
      (hline : lineContent p.line = c :: rest) (hcomment : c ≠ '#') (htab : c ≠ '\t')
      (hkind : Keyword.classify? (Text.firstWord (c :: rest)).1 = some kind)
      (hshift : shift unit m.column p (startColumn p.line) = .moved marks) :
      GoodReading unit m p ({ column := startColumn p.line, inText := false }, marks ++
        keywordTokens p (startColumn p.line) kind (Text.firstWord (c :: rest)).1
          (Text.firstWord (c :: rest)).2)
  | kept {c : Char} {rest : List Char} (hline : lineContent p.line = c :: rest)
      (hcomment : c ≠ '#') (htab : c ≠ '\t')
      (hkind : Keyword.classify? (Text.firstWord (c :: rest)).1 = none) (hin : m.inText = true)
      (hlt : m.column < startColumn p.line) :
      GoodReading unit m p (m, [textToken p m.column])
  | text {c : Char} {rest : List Char} {marks : List Token} (hline : lineContent p.line = c :: rest)
      (hcomment : c ≠ '#') (htab : c ≠ '\t')
      (hkind : Keyword.classify? (Text.firstWord (c :: rest)).1 = none)
      (hplain : m.inText = true → startColumn p.line ≤ m.column)
      (hshift : shift unit m.column p (startColumn p.line) = .moved marks) :
      GoodReading unit m p ({ column := startColumn p.line, inText := true },
        marks ++ [textToken p (startColumn p.line)])

/-- Without a bad mark, a line was laid out well. -/
theorem LineReading.good {unit : Int} {m : Margin} {p : Place} {r : Margin × List Token}
    (h : LineReading unit m p r) (hgood : ∀ t ∈ r.2, isBadMark t.kind = false) :
    GoodReading unit m p r := by
  cases h with
  | blank hline => exact .blank hline
  | comment hline => exact .comment hline
  | tab hline hread =>
    have hbad := hgood _ List.mem_cons_self
    cases hbad
  | content hline hcomment htab hread =>
    cases hread with
    | rejected hshift =>
      have hbad := hgood _ List.mem_cons_self
      rcases kind_of_rejected hshift with he | he <;> rw [he] at hbad <;> cases hbad
    | keyword hkind hshift => exact .keyword hline hcomment htab hkind hshift
    | kept hkind hin hlt => exact .kept hline hcomment htab hkind hin hlt
    | text hkind hplain hshift => exact .text hline hcomment htab hkind hplain hshift

/-- A line with content that is no comment and has no tab in front is read by its content. -/
theorem readLine_of_content {unit : Int} {m : Margin} {p : Place} {c : Char}
    {rest : List Char} (hline : lineContent p.line = c :: rest) (hcomment : c ≠ '#')
    (htab : c ≠ '\t') :
    readLine unit m p = readContent unit m p (startColumn p.line) (c :: rest) := by
  unfold readLine
  split
  · next hblank => rw [lineContent, hblank] at hline; cases hline
  · next hc => rw [lineContent, hc] at hline; cases hline; exact absurd rfl hcomment
  · next ht => rw [lineContent, ht] at hline; cases hline; exact absurd rfl htab
  · rw [← hline]
    rfl

/-- Every line that can be read in a good way is read so. -/
theorem readLine_of_good {unit : Int} {m : Margin} {p : Place} {r : Margin × List Token}
    (h : GoodReading unit m p r) : readLine unit m p = r := by
  cases h with
  | blank hline =>
    rw [lineContent] at hline
    simp only [readLine, hline]
  | comment hline =>
    rw [lineContent] at hline
    simp only [readLine, hline]
  | keyword hline hcomment htab hkind hshift =>
    rw [readLine_of_content hline hcomment htab]
    simp only [readContent, hkind, readKeyword, hshift]
  | kept hline hcomment htab hkind hin hlt =>
    rw [readLine_of_content hline hcomment htab]
    simp only [readContent, hkind, readText, hin, hlt, decide_true, Bool.and_self, if_true]
  | text hline hcomment htab hkind hplain hshift =>
    have hclamp : (m.inText && decide (m.column < startColumn p.line)) = false := by
      simpa using hplain
    rw [readLine_of_content hline hcomment htab]
    simp only [readContent, hkind, readText, hclamp, Bool.false_eq_true, if_false, hshift]

/-- Over lines that are laid out well, what holds before them and is kept by each holds behind
them. -/
theorem readLines_invariant_of_good (Inv : List (List Char) → Margin → List Token → Prop)
    {unit : Int} {fileName : String} {m : Margin} {number : Nat} {lines : List (List Char)}
    (hgood : ∀ t ∈ (readLines unit fileName m number lines).2, isBadMark t.kind = false)
    (h : Inv [] m [])
    (hline : ∀ line ∈ lines, ∀ number seen m ts r, Inv seen m ts →
      GoodReading unit m { fileName, number, line } r → Inv (seen ++ [line]) r.1 (ts ++ r.2)) :
    Inv lines (readLines unit fileName m number lines).1
      (readLines unit fileName m number lines).2 := by
  refine readLines_invariant
    (fun seen m ts => (∀ t ∈ ts, isBadMark t.kind = false) → Inv seen m ts) (fun _ => h) ?_ hgood
  intro line hmem number seen m ts r ih hread hts
  refine hline line hmem number seen m ts r (ih fun t ht => hts t (by simp [ht])) ?_
  exact hread.good fun t ht => hts t (by simp [ht])

/-! ### Whole outlines -/

/-- The marks that close the lines are outdentations. -/
theorem kind_of_mem_closingMarks {width : Nat} {fileName : String} {number column : Nat}
    {t : Token} (ht : t ∈ closingMarks width fileName number column) : t.kind = .outdent := by
  fun_induction closingMarks width fileName number column with
  | case1 column _ ih =>
    rcases List.mem_cons.mp ht with rfl | ht
    · rfl
    · exact ih ht
  | case2 => cases ht

/-- The tokens of an outline without the mark for its end. -/
def content (width : UInt64) (fileName source : String) : List Token :=
  (readLines (signedUnit width) fileName {} 1 (Text.lines source.toList)).2 ++
    closingMarks (atLeastOne width).toNat fileName ((Text.lines source.toList).length + 1)
      (readLines (signedUnit width) fileName {} 1 (Text.lines source.toList)).1.column

/-- The tokens of an outline are its content and the mark for its end. -/
theorem tokens_eq_content (width : UInt64) (fileName source : String) :
    tokens width fileName source = content width fileName source ++
      [Token.endOfFile fileName ((Text.lines source.toList).length + 1)] := rfl

/-- The content of an outline is of the kinds that lines give. -/
theorem kinds_of_content {width : UInt64} {fileName source : String} :
    ∀ t ∈ content width fileName source, isLineKind t.kind = true := by
  intro t ht
  rcases List.mem_append.mp ht with ht | ht
  · refine readLines_invariant (fun _ _ ts => ∀ t ∈ ts, isLineKind t.kind = true) (by simp) ?_ t ht
    intro line _ number seen m ts r hts hread u hu
    rcases List.mem_append.mp hu with hu | hu
    · exact hts u hu
    · exact hread.kinds u hu
  · rw [kind_of_mem_closingMarks ht]
    rfl

/-- What an outline gives as text stands in one of its lines. -/
theorem texts_of_content {width : UInt64} {fileName source : String} {t : Token}
    (ht : t ∈ content width fileName source) (hcarries : CarriesText t) :
    ∃ line ∈ Text.lines source.toList, t.text.toList ⊆ line := by
  rcases List.mem_append.mp ht with ht | ht
  · refine readLines_invariant (fun seen _ ts => ∀ t ∈ ts, CarriesText t →
      ∃ line ∈ seen, t.text.toList ⊆ line) (by simp) ?_ t ht hcarries
    intro line _ number seen m ts r hts hread u hu hcarries
    rcases List.mem_append.mp hu with hu | hu
    · obtain ⟨l, hl, hsub⟩ := hts u hu hcarries
      exact ⟨l, List.mem_append_left _ hl, hsub⟩
    · exact ⟨line, by simp, hread.texts u hu hcarries⟩
  · simp [CarriesText, kind_of_mem_closingMarks ht] at hcarries

/-- A name among the tokens of some lines stands behind a keyword. -/
theorem guarded_readLines (unit : Int) (fileName : String) (m : Margin) (number : Nat)
    (lines : List (List Char)) :
    Guarded (·.kind = .keywordText) IsKeyword (readLines unit fileName m number lines).2 := by
  refine readLines_invariant (fun _ _ => Guarded (·.kind = .keywordText) IsKeyword) .nil ?_
  intro line _ number seen m ts r hts hread
  exact hts.append hread.guarded

/-- The text of a keyword line stands right behind its keyword. -/
theorem guarded_content (width : UInt64) (fileName source : String) :
    Guarded (·.kind = .keywordText) IsKeyword (content width fileName source) := by
  refine (guarded_readLines _ fileName {} 1 _).append (.of_forall ?_)
  intro t ht
  simp [kind_of_mem_closingMarks ht]

end PromptOutline.Outline
