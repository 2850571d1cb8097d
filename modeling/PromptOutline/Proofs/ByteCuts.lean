import Mathlib.Data.List.TakeWhile
import PromptOutline.Proofs.Contentless

/-!
# Reading an outline by cuts at bytes

The words and the texts of an outline are parts of its lines. A part can be cut out of a text by the
number of the byte that it starts or ends at. Such a cut fails if the text has fewer bytes, and if
the byte lies inside a character. `cutTokens?` reads an outline by cuts alone: lengths and columns
are numbers of bytes, and one failing cut makes the whole reading fail. It never fails, and what it
reads are the tokens of the outline.
-/

namespace PromptOutline

namespace Text

/-! ### Cuts -/

/-- The number of bytes of a text. -/
def byteLength (cs : List Char) : Nat := (String.ofList cs).utf8ByteSize

/-- The first bytes of a text; none if it has fewer or a character stands across the cut. -/
def takeBytes? (n : Nat) (cs : List Char) : Option (List Char) :=
  if h : (String.Pos.Raw.mk n).IsValid (String.ofList cs) then
    some ((String.ofList cs).sliceTo ⟨⟨n⟩, h⟩).copy.toList
  else none

/-- What follows the first bytes of a text; none if it has fewer or a character stands across the
cut. -/
def dropBytes? (n : Nat) (cs : List Char) : Option (List Char) :=
  if h : (String.Pos.Raw.mk n).IsValid (String.ofList cs) then
    some ((String.ofList cs).sliceFrom ⟨⟨n⟩, h⟩).copy.toList
  else none

private theorem byteLength_append (cs ds : List Char) :
    byteLength (cs ++ ds) = byteLength cs + byteLength ds := by
  rw [byteLength, String.ofList_append, String.utf8ByteSize_append, byteLength, byteLength]

private theorem byteLength_spaces (n : Nat) : byteLength (List.replicate n ' ') = n := by
  induction n with
  | zero => rfl
  | succ n ih =>
    rw [List.replicate_succ', byteLength_append, ih]
    rfl

private theorem isValid_byteLength (before rest : List Char) :
    (String.Pos.Raw.mk (byteLength before)).IsValid (String.ofList (before ++ rest)) :=
  String.Pos.Raw.isValid_iff_exists_append.mpr
    ⟨String.ofList before, String.ofList rest, String.ofList_append, rfl⟩

private theorem splits_byteLength {before rest : List Char}
    (h : (String.Pos.Raw.mk (byteLength before)).IsValid (String.ofList (before ++ rest))) :
    String.Pos.Splits ⟨⟨byteLength before⟩, h⟩ (String.ofList before) (String.ofList rest) :=
  ⟨String.ofList_append, rfl⟩

/-- Between two texts that are put together, a cut gives the first one. -/
theorem takeBytes?_append (before rest : List Char) :
    takeBytes? (byteLength before) (before ++ rest) = some before := by
  have hvalid := isValid_byteLength before rest
  rw [takeBytes?, dif_pos hvalid, (splits_byteLength hvalid).copy_sliceTo_eq, String.toList_ofList]

/-- Between two texts that are put together, a cut leaves the second one. -/
theorem dropBytes?_append (before rest : List Char) :
    dropBytes? (byteLength before) (before ++ rest) = some rest := by
  have hvalid := isValid_byteLength before rest
  rw [dropBytes?, dif_pos hvalid, (splits_byteLength hvalid).copy_sliceFrom_eq,
    String.toList_ofList]

/-! ### Words -/

/-- The number of bytes before the first blank character; none if no character is blank. -/
def blankByte? (cs : List Char) : Option Nat :=
  if cs.any isBlank then some (byteLength (cs.takeWhile (!isBlank ·))) else none

/-- The first word and what follows the blanks after it, cut apart at the first blank. -/
def cutFirstWord? (cs : List Char) : Option (List Char × List Char) :=
  let body := trimStart cs
  match blankByte? body with
  | none => some (body, [])
  | some n => do
    let word ← takeBytes? n body
    let rest ← dropBytes? n body
    some (word, trimStart rest)

private theorem cutFirstWord?_eq (cs : List Char) : cutFirstWord? cs = some (firstWord cs) := by
  simp only [cutFirstWord?, firstWord]
  generalize trimStart cs = body
  by_cases hblank : body.any isBlank = true
  · have hsplit : body.takeWhile (!isBlank ·) ++ body.dropWhile (!isBlank ·) = body :=
      List.takeWhile_append_dropWhile
    have htake := takeBytes?_append (body.takeWhile (!isBlank ·)) (body.dropWhile (!isBlank ·))
    have hdrop := dropBytes?_append (body.takeWhile (!isBlank ·)) (body.dropWhile (!isBlank ·))
    rw [hsplit] at htake hdrop
    simp only [blankByte?, if_pos hblank, htake, hdrop, Option.bind_eq_bind, Option.bind_some]
  · have hword : ∀ c ∈ body, (!isBlank c) = true := by simpa using hblank
    have htake : body.takeWhile (!isBlank ·) = body := List.takeWhile_eq_self_iff.mpr hword
    have hdrop : body.dropWhile (!isBlank ·) = [] := List.dropWhile_eq_nil_iff.mpr hword
    simp only [blankByte?, if_neg hblank, htake, hdrop]
    rfl

end Text

namespace Outline

/-! ### Lines -/

/-- The text token of a line from a column on, cut at the byte of the column. Columns count from
one. -/
def cutText? (p : Place) (column : Nat) : Option Token :=
  if column = 0 then none
  else (Text.dropBytes? (column - 1) p.line).map fun text =>
    p.token .text (String.ofList text) column

/-- Read the content of a line by cuts. -/
def cutContent? (unit : Int) (m : Margin) (p : Place) (column : Nat) (content : List Char) :
    Option (Margin × List Token) := do
  let (word, rest) ← Text.cutFirstWord? content
  match Keyword.classify? word with
  | some kind => some (readKeyword unit m p column kind word rest)
  | none =>
    if m.inText && m.column < column then do
      let token ← cutText? p m.column
      some (m, [token])
    else match shift unit m.column p column with
      | .rejected mark => some (m, [mark])
      | .moved marks => do
        let token ← cutText? p column
        some ({ column, inText := true }, marks ++ [token])

/-- Read one line by cuts. The column of its content is the number of bytes before it, and one. -/
def cutLine? (unit : Int) (m : Margin) (p : Place) : Option (Margin × List Token) :=
  let stripped := p.line.dropWhile (· == ' ')
  let column := Text.byteLength p.line - Text.byteLength stripped + 1
  match stripped with
  | [] => some (m, if m.inText then [p.token .text "" m.column] else [])
  | '#' :: _ => some (m, [])
  | '\t' :: content => do
    let (m', tokens) ← cutContent? unit m p column content
    some (m', p.token .tab "[Tab]" column :: tokens)
  | content => cutContent? unit m p column content

/-- Read lines by cuts. -/
def cutLines? (unit : Int) (fileName : String) (m : Margin) (number : Nat) :
    List (List Char) → Option (Margin × List Token)
  | [] => some (m, [])
  | line :: rest => do
    let (m', tokens) ← cutLine? unit m { fileName, number, line }
    let (last, others) ← cutLines? unit fileName m' (number + 1) rest
    some (last, tokens ++ others)

/-- All tokens of an outline, read by cuts. There are none either if the unit that distances are
divided by is zero. -/
def cutTokens? (width : UInt64) (fileName : String) (source : String) : Option (List Token) :=
  if signedUnit width = 0 then none
  else do
    let lines := Text.lines source.toList
    let (m, body) ← cutLines? (signedUnit width) fileName {} 1 lines
    some (body ++ closing width fileName (lines.length + 1) m)

/-- The first characters of a line are spaces, as many as stand before its content. -/
theorem line_eq_spaces {line : List Char} {n : Nat} (h : n ≤ startColumn line - 1) :
    line = List.replicate n ' ' ++ line.drop n := by
  have htake : line.take n = List.replicate n ' ' := by
    conv_lhs => rw [line_eq line]
    rw [List.take_append_of_le_length (by simpa using h), List.take_replicate, Nat.min_eq_left h]
  rw [← htake, List.take_append_drop]

/-- A cut up to the content of a line goes through spaces alone. -/
theorem cutText?_eq {p : Place} {column : Nat} (hpos : 1 ≤ column)
    (hle : column ≤ startColumn p.line) : cutText? p column = some (textToken p column) := by
  obtain ⟨n, rfl⟩ : ∃ n, column = n + 1 := ⟨column - 1, (Nat.sub_add_cancel hpos).symm⟩
  have hline := line_eq_spaces (Nat.le_sub_one_of_lt hle)
  have hcut := Text.dropBytes?_append (List.replicate n ' ') (p.line.drop n)
  rw [Text.byteLength_spaces, ← hline] at hcut
  rw [cutText?, if_neg (Nat.succ_ne_zero n), Nat.add_sub_cancel, hcut]
  rfl

private theorem cutContent?_eq (unit : Int) {m : Margin} (hm : 1 ≤ m.column) {p : Place}
    (content : List Char) :
    cutContent? unit m p (startColumn p.line) content =
      some (readContent unit m p (startColumn p.line) content) := by
  simp only [cutContent?, readContent, Text.cutFirstWord?_eq, Option.bind_eq_bind,
    Option.bind_some]
  cases Keyword.classify? (Text.firstWord content).1 with
  | some kind => rfl
  | none =>
    by_cases hclamp : (m.inText && decide (m.column < startColumn p.line)) = true
    · have hlt : m.column < startColumn p.line := by simp_all
      simp only [readText, if_pos hclamp, cutText?_eq hm (Nat.le_of_lt hlt), Option.bind_some]
    · simp only [readText, if_neg hclamp]
      cases shift unit m.column p (startColumn p.line) with
      | rejected mark => rfl
      | moved marks =>
        simp only [cutText?_eq (startColumn_pos p.line) (Nat.le_refl _), Option.bind_some]

/-- The spaces before the content of a line are as many bytes. -/
theorem startColumn_eq_bytes (line : List Char) :
    Text.byteLength line - Text.byteLength (line.dropWhile (· == ' ')) + 1 = startColumn line := by
  have hbytes : Text.byteLength line =
      startColumn line - 1 + Text.byteLength (line.dropWhile (· == ' ')) := by
    conv_lhs => rw [line_eq line, Text.byteLength_append, Text.byteLength_spaces]
    rfl
  rw [hbytes, Nat.add_sub_cancel, Nat.sub_add_cancel (startColumn_pos line)]

private theorem cutLine?_eq (unit : Int) {m : Margin} (hm : 1 ≤ m.column) (p : Place) :
    cutLine? unit m p = some (readLine unit m p) := by
  have hcontent (content : List Char) : cutContent? unit m p (startColumn p.line) content =
      some (readContent unit m p ((p.line.takeWhile (· == ' ')).length + 1) content) :=
    cutContent?_eq unit hm content
  simp only [cutLine?, readLine, startColumn_eq_bytes]
  rcases p.line.dropWhile (· == ' ') with _ | ⟨c, content⟩
  · rfl
  by_cases hcomment : c = '#'
  · subst hcomment
    rfl
  by_cases htab : c = '\t'
  · subst htab
    simp only [hcontent, Option.bind_eq_bind, Option.bind_some]
    rfl
  · simp only [hcontent, List.cons.injEq, hcomment, htab, false_and, imp_self, implies_true]

/-- From a margin in the first column or right of it, no cut fails on the way through the lines. -/
theorem cutLines?_eq (unit : Int) (fileName : String) {m : Margin} (hm : 1 ≤ m.column)
    (number : Nat) (ls : List (List Char)) :
    cutLines? unit fileName m number ls = some (readLines unit fileName m number ls) := by
  induction ls generalizing m number with
  | nil => rfl
  | cons line ls ih =>
    have hpos := (readLine_reading unit m { fileName, number, line }).column_pos hm
    simp only [cutLines?, readLines, cutLine?_eq unit hm, ih hpos, Option.bind_eq_bind,
      Option.bind_some]

/-! ### Outlines -/

private theorem signedUnit_ne_zero (width : UInt64) : signedUnit width ≠ 0 := by
  have hne : atLeastOne width ≠ 0 := by
    unfold atLeastOne
    split
    · decide
    · assumption
  intro hzero
  apply hne
  apply UInt64.toBitVec_inj.mp
  rw [signedUnit, Int64.toInt, UInt64.toBitVec_toInt64] at hzero
  exact BitVec.toInt_inj.mp hzero

/-- No cut fails on the way through an outline, and the tokens are its own. -/
theorem cutTokens?_eq (width : UInt64) (fileName source : String) :
    cutTokens? width fileName source = some (tokens width fileName source) := by
  have hlines := cutLines?_eq (signedUnit width) fileName (m := {}) (le_refl 1) 1
    (Text.lines source.toList)
  simp only [cutTokens?, if_neg (signedUnit_ne_zero width), hlines, Option.bind_eq_bind,
    Option.bind_some, tokens_eq_closing]

end Outline

end PromptOutline
