import PromptOutline.Proofs.LinePrefix
import PromptOutline.Token.Embedding

/-!
# Where tokens stand in their lines

A token of an outline knows the number and the text of the line it was cut from. Up to its column
that line has nothing but spaces, and from there on it shows the token: a text with all its
characters, a keyword as the first word, a mark at the first character that is no space. The words
behind a keyword and the empty texts are left out; their columns are not places in the line.
-/

namespace PromptOutline

/-! ### Bytes of texts -/

namespace Text.Utf8

private theorem toList_loop (bytes : ByteArray) (i : Nat) (acc : List UInt8) :
    ByteArray.toList.loop bytes i acc = acc.reverse ++ bytes.data.toList.drop i := by
  fun_induction ByteArray.toList.loop bytes i acc with
  | case1 i acc h ih =>
    have hlt : i < bytes.data.toList.length := by simpa using h
    have hget : bytes.get! i = bytes.data.toList.get ⟨i, hlt⟩ := by
      simp [ByteArray.get!, getElem!_pos bytes.data i h]
    rw [ih, List.reverse_cons, List.append_assoc, hget, List.drop_eq_getElem_cons hlt]
    rfl
  | case2 i acc h => rw [List.drop_eq_nil_of_le (by simpa using h), List.append_nil]

private theorem encode_eq (s : String) : encode s = s.toByteArray.data.toList := by
  rw [encode, ByteArray.toList, toList_loop]
  rfl

private theorem encode_append (s t : String) : encode (s ++ t) = encode s ++ encode t := by
  rw [encode_eq, encode_eq, encode_eq, String.toByteArray_append, ByteArray.data_append,
    Array.toList_append]

/-- A space is one byte. -/
theorem encode_spaces (n : Nat) :
    encode (String.ofList (List.replicate n ' ')) = List.replicate n 0x20 := by
  induction n with
  | zero => decide +kernel
  | succ n ih =>
    have hone : encode (String.ofList [' ']) = [0x20] := by decide +kernel
    rw [List.replicate_succ, List.replicate_succ, ← ih, ← List.singleton_append,
      String.ofList_append, encode_append, hone]
    rfl

private theorem length_encode (s : String) : (encode s).length = s.utf8ByteSize := by
  rw [encode_eq, Array.length_toList]
  rfl

/-- Behind spaces at the start of a text there is a byte for whatever follows. -/
theorem lt_length_encode {s : String} {n : Nat} {rest : List Char}
    (h : s.toList = List.replicate n ' ' ++ rest) (hrest : rest ≠ []) :
    (encode s).take n = List.replicate n 0x20 ∧ n < (encode s).length := by
  have hs : s = String.ofList (List.replicate n ' ') ++ String.ofList rest := by
    rw [← String.ofList_append, ← h, String.ofList_toList]
  have hbyte : 0 < (encode (String.ofList rest)).length := by
    rw [length_encode]
    apply Nat.pos_of_ne_zero
    intro hzero
    apply hrest
    simpa using congrArg String.toList (String.utf8ByteSize_eq_zero_iff.mp hzero)
  rw [hs, encode_append, encode_spaces, List.length_append, List.length_replicate]
  exact ⟨List.take_left' List.length_replicate, by omega⟩

end Text.Utf8

/-- `StartsAt t rest`: a line that goes on with `rest` from the column of the token `t` shows the
token there. -/
structure Token.StartsAt (t : Token) (rest : List Char) : Prop where
  nonempty : rest ≠ []
  /-- A text is all of it, spaces that were kept included. -/
  text : t.kind = .text → rest = t.text.toList
  /-- Anything else starts behind the leading spaces. -/
  other : t.kind ≠ .text → rest.head? ≠ some ' '
  keyword : t.kind.isBlock = true ∨ t.kind.isDirective = true →
    Keyword.classify? (Text.firstWord rest).1 = some t.kind

/-- Whether the column of a token is a place in its line. -/
def Token.hasCaret (t : Token) : Bool :=
  t.kind != .keywordText && !(t.kind == .text && t.text.isEmpty)

namespace Outline

variable {unit : Int} {m : Margin} {p : Place}

/-! ### Lines -/

private theorem startsAt_mark {t : Token} {c : Char} {tail : List Char} (hc : c ≠ ' ')
    (hkind : t.kind ≠ .text) (hplain : t.kind.isBlock = false ∧ t.kind.isDirective = false) :
    t.StartsAt (c :: tail) where
  nonempty := by simp
  text h := absurd h hkind
  other _ := by simpa using hc
  keyword h := by simp [hplain] at h

private theorem startsAt_text {rest : List Char} {column : Nat}
    (hline : p.line.drop (column - 1) = rest) (hne : rest ≠ []) :
    (textToken p column).StartsAt rest where
  nonempty := hne
  text _ := by simp [textToken, Place.token, hline]
  other h := absurd rfl h
  keyword h := by simp [textToken, Place.token, TokenKind.isBlock, TokenKind.isDirective] at h

private theorem ContentReading.startsAt {column : Nat} {content tail : List Char} {c : Char}
    {r : Margin × List Token} (h : ContentReading unit m p column content r)
    (hline : p.line = List.replicate (column - 1) ' ' ++ c :: tail) (hc : c ≠ ' ')
    (hword : Text.firstWord (c :: tail) = Text.firstWord content) :
    ∀ t ∈ r.2, t.hasCaret = true →
      ∃ rest, p.line = List.replicate (t.column - 1) ' ' ++ rest ∧ t.StartsAt rest := by
  have hmarks {marks : List Token} (hshift : shift unit m.column p column = .moved marks) :
      ∀ t ∈ marks, ∃ rest, p.line = List.replicate (t.column - 1) ' ' ++ rest ∧
        t.StartsAt rest := by
    intro t ht
    have hkind := kinds_of_moved hshift t ht
    obtain ⟨kind, text, rfl⟩ := eq_token_of_moved hshift t ht
    refine ⟨c :: tail, hline, startsAt_mark hc ?_ ?_⟩
    · rcases hkind with he | he <;> simp [he]
    · rcases hkind with he | he <;> rw [he] <;> exact ⟨rfl, rfl⟩
  intro t ht hcaret
  cases h with
  | rejected hshift =>
    have hkind := kind_of_rejected hshift
    obtain ⟨kind, text, rfl⟩ := eq_token_of_rejected hshift
    rw [List.mem_singleton.mp ht]
    refine ⟨c :: tail, hline, startsAt_mark hc ?_ ?_⟩
    · rcases hkind with he | he <;> simp [he]
    · rcases hkind with he | he <;> rw [he] <;> exact ⟨rfl, rfl⟩
  | @keyword kind marks hkind hshift =>
    rcases List.mem_append.mp ht with ht | ht
    · exact hmarks hshift t ht
    rcases List.mem_cons.mp ht with rfl | ht
    · refine ⟨c :: tail, hline, by simp, fun he => ?_, fun _ => by simpa using hc, fun _ => ?_⟩
      · exact absurd he (ne_of_keyword hkind).2.1
      · rw [hword, hkind]
        rfl
    · -- the words behind a keyword have no caret
      simp only [List.mem_ite_nil_left, List.mem_singleton] at ht
      rw [ht.2] at hcaret
      cases hcaret
  | kept hkind hin hlt =>
    rw [List.mem_singleton.mp ht]
    have hspaces : List.replicate (column - 1) ' ' =
        List.replicate (m.column - 1) ' ' ++
          List.replicate (column - 1 - (m.column - 1)) ' ' := by
      rw [List.replicate_append_replicate]
      congr 1
      omega
    have hsplit : p.line = List.replicate (m.column - 1) ' ' ++
        (List.replicate (column - 1 - (m.column - 1)) ' ' ++ c :: tail) := by
      rw [hline, hspaces, List.append_assoc]
    refine ⟨_, hsplit, startsAt_text ?_ (by simp)⟩
    conv_lhs => rw [hsplit]
    exact List.drop_left' (by simp)
  | text _ _ hshift =>
    rcases List.mem_append.mp ht with ht | ht
    · exact hmarks hshift t ht
    · rw [List.mem_singleton.mp ht]
      refine ⟨c :: tail, hline, startsAt_text ?_ (by simp)⟩
      conv_lhs => rw [hline]
      exact List.drop_left' (by simp)

/-- Up to the column of its token a line has spaces, and from there on it shows the token. -/
theorem LineReading.startsAt {r : Margin × List Token} (h : LineReading unit m p r) :
    ∀ t ∈ r.2, t.hasCaret = true →
      ∃ rest, p.line = List.replicate (t.column - 1) ' ' ++ rest ∧ t.StartsAt rest := by
  intro t ht hcaret
  have hsplit := line_eq p.line
  cases h with
  | blank =>
    simp only [List.mem_ite_nil_right, List.mem_singleton] at ht
    rw [ht.2] at hcaret
    cases hcaret
  | comment => cases ht
  | tab hline hread =>
    rw [hline] at hsplit
    rcases List.mem_cons.mp ht with rfl | ht
    · exact ⟨_, hsplit, startsAt_mark (by decide) (by simp [Place.token]) ⟨rfl, rfl⟩⟩
    · exact hread.startsAt hsplit (by decide) (firstWord_tab _) t ht hcaret
  | content hline _ _ hread =>
    have hc := lineContent_head hline
    rw [hline] at hsplit
    exact hread.startsAt hsplit hc rfl t ht hcaret

/-! ### Whole files -/

private theorem rawLine_of_mem_closingMarks {width number column : Nat} {fileName : String}
    {t : Token}
    (ht : t ∈ closingMarks width fileName number column) : t.rawLine = "" := by
  fun_induction closingMarks width fileName number column with
  | case1 column _ ih =>
    rcases List.mem_cons.mp ht with rfl | ht
    · rfl
    · exact ih ht
  | case2 => cases ht

/-- A token of lines was given by one of them. -/
theorem exists_line_of_mem_readLines {fileName : String} {number : Nat} {ls : List (List Char)}
    {t : Token} (ht : t ∈ (readLines unit fileName m number ls).2) :
    ∃ i line m' r, ls[i]? = some line ∧
      LineReading unit m' { fileName, number := number + i, line } r ∧ t ∈ r.2 := by
  induction ls generalizing m number with
  | nil => cases ht
  | cons line ls ih =>
    rw [readLines] at ht
    rcases List.mem_append.mp ht with ht | ht
    · exact ⟨0, line, m, _, rfl, readLine_reading .., ht⟩
    · obtain ⟨i, line', m', r, hline, hread, hr⟩ := ih ht
      refine ⟨i + 1, line', m', r, by simpa using hline, ?_, hr⟩
      rwa [show number + (i + 1) = number + 1 + i by omega]

/-- `CutFrom ls t`: the token `t` was cut from the line of its number, one of `ls`. -/
structure CutFrom (ls : List (List Char)) (t : Token) : Prop where
  number : 0 < t.line
  line : ls[t.line - 1]? = some t.rawLine.toList
  caret : t.hasCaret = true → t.rawLine ≠ "" →
    ∃ rest, t.rawLine.toList = List.replicate (t.column - 1) ' ' ++ rest ∧ t.StartsAt rest

/-- A token of an outline was cut from one of its lines, or it stands behind all of them. -/
theorem cutFrom_of_mem_tokens {width : UInt64} {fileName source : String} {t : Token}
    (ht : t ∈ tokens width fileName source) :
    CutFrom (Text.lines source.toList) t ∨
      t.rawLine = "" ∧ t.line = (Text.lines source.toList).length + 1 ∧
        (t.kind = .outdent ∨ t.kind = .endOfFile) := by
  rw [tokens_eq_content, content] at ht
  simp only [List.mem_append, List.mem_singleton] at ht
  rcases ht with (ht | ht) | rfl
  · left
    obtain ⟨i, line, m', r, hline, hread, hr⟩ := exists_line_of_mem_readLines ht
    have hcaret := hread.startsAt t hr
    obtain ⟨kind, text, column, rfl⟩ := hread.eq_token t hr
    constructor
    · exact Nat.add_pos_left Nat.one_pos i
    · simpa [Place.token] using hline
    · intro hc _
      simpa [Place.token] using hcaret hc
  · right
    exact ⟨rawLine_of_mem_closingMarks ht, line_of_mem_closingMarks ht,
      .inl (kind_of_mem_closingMarks ht)⟩
  · exact .inr ⟨rfl, rfl, .inr rfl⟩

end Outline

namespace Embedding

open Outline (CutFrom)

/-- Tokens of lines that stand behind others in a file. -/
theorem cutFrom_of_mem_lineTokens {fileName : String} {ls : List (List Char)} {t : Token}
    (before : List (List Char)) (ht : t ∈ lineTokens fileName (before.length + 1) ls) :
    CutFrom (before ++ ls) t := by
  induction ls generalizing before with
  | nil => cases ht
  | cons line ls ih =>
    rcases List.mem_cons.mp ht with rfl | ht
    · refine ⟨Nat.succ_pos _, by simp [textToken], fun hcaret hne => ?_⟩
      refine ⟨line, by simp [textToken], fun hnil => ?_, fun _ => by simp [textToken], ?_, ?_⟩
      · subst hnil
        exact hne rfl
      · exact fun h => absurd rfl h
      · intro h
        simp [textToken, TokenKind.isBlock, TokenKind.isDirective] at h
    · have hrest := ih (before ++ [line]) (by simpa using ht)
      simpa using hrest

/-- The tokens that stand for no line of an embedded file: the line that names the file, the fence
before its lines and the fence behind them. -/
def added (fileName source : String) : List Token :=
  [textToken fileName "" ("File: " ++ fileName) 1,
    textToken fileName "" (fence ++ language fileName) 1,
    textToken fileName "" fence ((Text.lines source.toList).length + 1)]

/-- A token of an embedded file was cut from one of its lines, or it was added to them. -/
theorem cutFrom_of_mem_tokens {fileName source : String} {t : Token}
    (ht : t ∈ tokens fileName source) :
    CutFrom (Text.lines source.toList) t ∨
      t.rawLine = "" ∧ (t ∈ added fileName source ∨ t.kind = .endOfFile) := by
  simp only [tokens, List.mem_cons, List.mem_append, List.not_mem_nil, or_false] at ht
  rcases ht with rfl | rfl | ht | rfl | rfl
  · exact .inr ⟨rfl, .inl (by simp [added])⟩
  · exact .inr ⟨rfl, .inl (by simp [added])⟩
  · exact .inl (cutFrom_of_mem_lineTokens [] ht)
  · exact .inr ⟨rfl, .inl (by simp [added])⟩
  · exact .inr ⟨rfl, .inr rfl⟩

end Embedding

end PromptOutline
