import PromptOutline.Proofs.Grammar
import PromptOutline.Proofs.LineTokens
import PromptOutline.Proofs.Rows

/-!
# Trees whose prompts can be read again

A prompt is an outline itself. `Printable` says what trees need for that: names and texts that
stay on one line and are no keyword lines or comments, blocks that are not empty, and a first text
without spaces before it. The trees of every outline without carriage returns are printable,
because of what its tokens hold and which of them stand side by side.
-/

namespace PromptOutline

namespace Outline

/-- Text that is read as text wherever a line of it starts: nothing, or content that is no
comment, no tab and no keyword behind some spaces. -/
def IsText (cs : List Char) : Prop :=
  cs = [] ∨ ∃ c rest, lineContent cs = c :: rest ∧ c ≠ '#' ∧ c ≠ '\t' ∧
    Keyword.classify? (Text.firstWord (c :: rest)).1 = none

/-- Text that starts with content. -/
def StartsClean (cs : List Char) : Prop := ∃ c rest, cs = c :: rest ∧ c ≠ ' '

/-- The text of a keyword line: it starts with a character that is not blank. -/
def IsNameText (cs : List Char) : Prop := ∃ c rest, cs = c :: rest ∧ Text.isBlank c = false

/-- Text without line feeds and carriage returns. -/
def OnOneLine (cs : List Char) : Prop := '\n' ∉ cs ∧ '\r' ∉ cs

/-- What the tokens of an outline hold, and which of them stand side by side: a text that does not
start with content stands behind a text, and no outdent stands behind an indent. -/
structure Written (ts : List Token) : Prop where
  names : ∀ t ∈ ts, t.kind = .keywordText → IsNameText t.text.toList
  texts : ∀ t ∈ ts, t.kind = .text → IsText t.text.toList
  chain : ts.IsChain fun a b =>
    (b.kind = .text → a.kind = .text ∨ StartsClean b.text.toList) ∧
      (a.kind = .indent → b.kind ≠ .outdent)

namespace Written

variable {ts us : List Token}

private theorem nil : Written [] := ⟨by simp, by simp, .nil⟩

private theorem append (hts : Written ts) (hus : Written us)
    (hjoin : ∀ a ∈ ts.getLast?, ∀ b ∈ us.head?,
      (b.kind = .text → a.kind = .text ∨ StartsClean b.text.toList) ∧
        (a.kind = .indent → b.kind ≠ .outdent)) : Written (ts ++ us) where
  names t ht := (List.mem_append.mp ht).elim (hts.names t) (hus.names t)
  texts t ht := (List.mem_append.mp ht).elim (hts.texts t) (hus.texts t)
  chain := List.isChain_append.mpr ⟨hts.chain, hus.chain, hjoin⟩

private theorem of_part (h : Written us) (hpart : ts <:+: us) : Written ts where
  names t ht := h.names t (hpart.subset ht)
  texts t ht := h.texts t (hpart.subset ht)
  chain := h.chain.infix hpart

end Written

/-! ### The texts of a line -/

/-- The content of a text line is text from any column of its leading spaces on. -/
theorem isText_drop {line rest : List Char} {c : Char} {n : Nat} (hn : n ≤ startColumn line - 1)
    (hcontent : lineContent line = c :: rest) (hcomment : c ≠ '#') (htab : c ≠ '\t')
    (hkind : Keyword.classify? (Text.firstWord (c :: rest)).1 = none) : IsText (line.drop n) := by
  refine .inr ⟨c, rest, ?_, hcomment, htab, hkind⟩
  rw [drop_eq_spaces hn, lineContent_spaces, lineContent_lineContent, hcontent]

/-- What follows the first word of a line, if anything does, can be a name. -/
theorem isNameText_rest {cs : List Char} (h : (Text.firstWord cs).2 ≠ []) :
    IsNameText (Text.firstWord cs).2 := by
  obtain ⟨c, rest, hcs⟩ := List.exists_cons_of_ne_nil h
  have hhead := List.head?_dropWhile_not Text.isBlank
    ((Text.trimStart cs).dropWhile (!Text.isBlank ·))
  rw [show ((Text.trimStart cs).dropWhile (!Text.isBlank ·)).dropWhile Text.isBlank = c :: rest
    from hcs] at hhead
  exact ⟨c, rest, hcs, hhead⟩

/-! ### The tokens of well laid out lines -/

/-- What the tokens of a line need from the margin before it, and what they leave. -/
structure LineWritten (m : Margin) (r : Margin × List Token) : Prop where
  written : Written r.2
  head : ∀ b ∈ r.2.head?, b.kind = .text → m.inText = true ∨ StartsClean b.text.toList
  last : ∀ a ∈ r.2.getLast?, a.kind ≠ .indent ∧ (r.1.inText = true → a.kind = .text)
  silent : r.2 = [] → r.1 = m

private theorem written_marks {unit : Int} {margin : Nat} {p : Place} {column : Nat}
    {marks : List Token} (h : shift unit margin p column = .moved marks) : Written marks := by
  obtain ⟨n, mark, rfl, hkind⟩ := moved_eq_replicate h
  have hne : mark.kind ≠ .keywordText ∧ mark.kind ≠ .text := by
    rcases hkind with he | he <;> simp [he]
  refine ⟨?_, ?_, ?_⟩
  · intro t ht hk
    rw [List.eq_of_mem_replicate ht] at hk
    exact absurd hk hne.1
  · intro t ht hk
    rw [List.eq_of_mem_replicate ht] at hk
    exact absurd hk hne.2
  · refine (List.pairwise_replicate.mpr (.inr ⟨fun hk => absurd hk hne.2, ?_⟩)).isChain
    intro hi
    simp [hi]

private theorem written_keywordTokens {p : Place} {column : Nat} {kind : TokenKind}
    {cs : List Char} (hkind : Keyword.classify? (Text.firstWord cs).1 = some kind) :
    Written (keywordTokens p column kind (Text.firstWord cs).1 (Text.firstWord cs).2) := by
  obtain ⟨hname, htext, hindent, -⟩ := ne_of_keyword hkind
  unfold keywordTokens
  split
  · exact ⟨by simp [Place.token, hname], by simp [Place.token, htext], .singleton _⟩
  · next hrest =>
    refine ⟨?_, by simp [Place.token, htext], ?_⟩
    · simpa [Place.token, hname] using isNameText_rest hrest
    · simp [Place.token, hindent]

/-- A token of a line's content puts the line in order, whatever marks stand before it. -/
theorem lineWritten_of_marks {unit : Int} {m m' : Margin} {p : Place} {column : Nat}
    {marks tail : List Token} (hshift : shift unit m.column p column = .moved marks)
    (htail : Written tail) (hne : tail ≠ [])
    (hhead : ∀ b ∈ tail.head?, b.kind ≠ .outdent ∧ (b.kind = .text → StartsClean b.text.toList))
    (hlast : ∀ a ∈ tail.getLast?, a.kind ≠ .indent ∧ (m'.inText = true → a.kind = .text)) :
    LineWritten m (m', marks ++ tail) where
  written := by
    refine (written_marks hshift).append htail ?_
    intro a _ b hb
    exact ⟨fun hk => .inr ((hhead b hb).2 hk), fun _ => (hhead b hb).1⟩
  head := by
    cases marks with
    | nil => exact fun b hb hk => .inr ((hhead b hb).2 hk)
    | cons t marks =>
      intro b hb hk
      obtain rfl : t = b := by simpa using hb
      rcases kinds_of_moved hshift t (by simp) with he | he <;> rw [he] at hk <;> cases hk
  last := by
    rw [List.getLast?_append_of_ne_nil marks hne]
    exact hlast
  silent h := absurd (List.append_eq_nil_iff.mp h).2 hne

private theorem written_text {p : Place} {column : Nat}
    (htext : IsText (p.line.drop (column - 1))) :
    Written [textToken p column] := by
  refine ⟨by simp [textToken, Place.token], ?_, .singleton _⟩
  simpa [textToken, Place.token] using htext

private theorem GoodReading.written {unit : Int} {m : Margin} {p : Place} {r : Margin × List Token}
    (h : GoodReading unit m p r) : LineWritten m r := by
  cases h with
  | blank hblank =>
    by_cases hin : m.inText = true
    · rw [if_pos hin]
      have hempty : Written [p.token .text "" m.column] :=
        ⟨by simp [Place.token], by simp [Place.token, IsText], .singleton _⟩
      exact ⟨hempty, fun _ _ _ => .inl hin, by simp [Place.token], by simp⟩
    · rw [if_neg hin]
      exact ⟨.nil, by simp, by simp, fun _ => rfl⟩
  | comment hcomment => exact ⟨.nil, by simp, by simp, fun _ => rfl⟩
  | keyword hcontent hcomment htab hkind hshift =>
    obtain ⟨-, htext, hindent, houtdent⟩ := ne_of_keyword hkind
    refine lineWritten_of_marks hshift (written_keywordTokens hkind) ?_ ?_ ?_
    · simp [keywordTokens]
    · simp [keywordTokens, Place.token, htext, houtdent]
    · intro a ha
      refine ⟨?_, fun hin => by cases hin⟩
      rcases kinds_of_keywordTokens (List.mem_of_getLast? ha) with he | he
      · rwa [he]
      · simp [he]
  | kept hcontent hcomment htab hkind hin hlt =>
    have htext :=
      isText_drop (Nat.sub_le_sub_right (Nat.le_of_lt hlt) 1) hcontent hcomment htab hkind
    exact ⟨written_text htext, fun _ _ _ => .inl hin, by simp [textToken, Place.token],
      by simp⟩
  | text hcontent hcomment htab hkind hplain hshift =>
    have htext := isText_drop (Nat.le_refl _) hcontent hcomment htab hkind
    refine lineWritten_of_marks hshift (written_text htext) (by simp) ?_
      (by simp [textToken, Place.token])
    intro b hb
    obtain rfl : textToken p (startColumn p.line) = b := by simpa using hb
    refine ⟨by simp [textToken, Place.token], fun _ => ?_⟩
    have hclean : StartsClean (lineContent p.line) := ⟨_, _, hcontent, lineContent_head hcontent⟩
    simpa [textToken, Place.token, drop_startColumn] using hclean

private theorem written_of_outdents {ts : List Token} (h : ∀ t ∈ ts, t.kind = .outdent) :
    Written ts := by
  refine ⟨fun t ht hk => ?_, fun t ht hk => ?_, ?_⟩
  · rw [h t ht] at hk
    cases hk
  · rw [h t ht] at hk
    cases hk
  · apply List.Pairwise.isChain
    apply List.pairwise_of_forall_mem_list
    intro a ha b hb
    simp [h a ha, h b hb]

/-- An outline without bad marks is written in this form. -/
theorem written_content {width : UInt64} {fileName source : String}
    (hgood : ∀ t ∈ content width fileName source, isBadMark t.kind = false) :
    Written (content width fileName source) := by
  have hlines : Written
        (readLines (signedUnit width) fileName {} 1 (Text.lines source.toList)).2 ∧
      ∀ a ∈ (readLines (signedUnit width) fileName {} 1 (Text.lines source.toList)).2.getLast?,
        a.kind ≠ .indent ∧
          ((readLines (signedUnit width) fileName {} 1 (Text.lines source.toList)).1.inText = true →
            a.kind = .text) := by
    refine readLines_invariant_of_good
      (fun _ m ts => Written ts ∧
        ∀ a ∈ ts.getLast?, a.kind ≠ .indent ∧ (m.inText = true → a.kind = .text))
      (fun t ht => hgood t (List.mem_append_left _ ht)) ⟨.nil, by simp⟩ ?_
    rintro line _ number seen m ts r ⟨hts, hlast⟩ hread
    have hl := hread.written
    constructor
    · refine hts.append hl.written ?_
      intro a ha b hb
      obtain ⟨hindent, htext⟩ := hlast a ha
      exact ⟨fun hk => (hl.head b hb hk).imp htext id, fun hi => absurd hi hindent⟩
    · by_cases hr : r.2 = []
      · rw [hr, List.append_nil, hl.silent hr]
        exact hlast
      · rw [List.getLast?_append_of_ne_nil ts hr]
        exact hl.last
  refine hlines.1.append (written_of_outdents fun t ht => kind_of_mem_closingMarks ht) ?_
  intro a ha b hb
  have houtdent := kind_of_mem_closingMarks (List.mem_of_mem_head? hb)
  refine ⟨fun hk => ?_, fun hi => absurd hi (hlines.2 a ha).1⟩
  rw [houtdent] at hk
  cases hk

/-- In an outline without carriage returns, texts and names stay on one line. -/
theorem onOneLine_of_content {width : UInt64} {fileName source : String} {t : Token}
    (hreturn : '\r' ∉ source.toList) (ht : t ∈ content width fileName source)
    (hcarries : CarriesText t) : OnOneLine t.text.toList := by
  obtain ⟨line, hline, hsub⟩ := texts_of_content ht hcarries
  constructor
  · intro hm
    exact (Text.mem_of_mem_lines hline (hsub hm)).2 rfl
  · intro hm
    exact hreturn (Text.mem_of_mem_lines hline (hsub hm)).1

end Outline

/-! ### Printable trees -/

namespace Grammar

open Outline

/-- Neighbouring blocks of these kinds whose rows can be read again. -/
inductive Printable : List TokenKind → List Tree → Prop where
  | nil {kinds : List TokenKind} : Printable kinds []
  | cons {kinds : List TokenKind} {keyword : Content} {name? : Option Content}
      {texts : List Content} {nested others : List Tree}
      (hkeyword : keyword.kind ∈ kinds) (hvalue : keyword.value = "") (hform : keyword.form = .line)
      (hname : ∀ c ∈ name?, c.kind = .keywordText ∧ c.form = .line ∧
        IsNameText c.value.toList ∧ OnOneLine c.value.toList)
      (htexts : ∀ c ∈ texts, c.kind = .text ∧ c.form = .line ∧
        IsText c.value.toList ∧ OnOneLine c.value.toList)
      (hfirst : ∀ c ∈ texts.head?, StartsClean c.value.toList)
      (hbody : texts = [] → nested ≠ [])
      (hnested : Printable (nestedKinds keyword.kind) nested) (hothers : Printable kinds others) :
      Printable kinds (.node keyword
        (name?.toList.map (.node · []) ++ (texts.map (.node · []) ++ nested)) :: others)

/-- Trees that can be printed are of the kinds that are expected. -/
theorem Printable.kinds_of_mem {kinds : List TokenKind} {forest : List Tree}
    (h : Printable kinds forest) : ∀ t ∈ forest, t.content.kind ∈ kinds := by
  induction h with
  | nil => simp
  | cons hkeyword _ _ _ _ _ _ _ _ _ ihothers =>
    intro t ht
    rcases List.mem_cons.mp ht with rfl | ht
    · exact hkeyword
    · exact ihothers t ht

/-- Each of some trees that can be printed can be printed. -/
theorem Printable.of_mem {kinds : List TokenKind} {forest : List Tree} {t : Tree}
    (h : Printable kinds forest) (ht : t ∈ forest) : Printable kinds [t] := by
  induction h with
  | nil => cases ht
  | cons hkeyword hvalue hform hname htexts hfirst hbody hnested hothers _ ihothers =>
    rcases List.mem_cons.mp ht with rfl | ht
    · exact .cons hkeyword hvalue hform hname htexts hfirst hbody hnested .nil
    · exact ihothers ht

/-- Trees each of which can be printed can be printed together. -/
theorem Printable.of_forall {kinds : List TokenKind} {forest : List Tree}
    (h : ∀ t ∈ forest, Printable kinds [t]) : Printable kinds forest := by
  induction forest with
  | nil => exact .nil
  | cons t forest ih =>
    cases h t (by simp) with
    | cons hkeyword hvalue hform hname htexts hfirst hbody hnested =>
      exact .cons hkeyword hvalue hform hname htexts hfirst hbody hnested
        (ih fun u hu => h u (by simp [hu]))

/-- The trees of well written tokens are printable. -/
theorem Blocks.printable {kinds : List TokenKind} {ts : List Token} {forest : List Tree}
    (h : Blocks kinds ts forest) (hk : ∀ k ∈ kinds, k.isBlock = true) (hts : Written ts)
    (hone : ∀ t ∈ ts, CarriesText t → OnOneLine t.text.toList) : Printable kinds forest := by
  induction h with
  | nil => exact .nil
  | @cons kinds keyword indent outdent name? texts inner rest nested others
      hkeyword hname hindent htexts hinner houtdent hrest ihinner ihrest =>
    have hblock : keyword.kind.isBlock = true := hk _ hkeyword
    have hbody : indent :: (texts ++ (inner ++ [outdent])) <:+:
        blockTokens keyword name? indent texts inner outdent ++ rest :=
      ⟨keyword :: name?.toList, rest, by simp [blockTokens]⟩
    have hchain := List.isChain_cons.mp (hts.of_part hbody).chain
    rw [blockTree_eq]
    refine .cons hkeyword (by simp [Content.ofToken, hblock]) rfl ?_ ?_ ?_ ?_ ?_ ?_
    · intro c hc
      obtain ⟨t, ht, rfl⟩ := Option.map_eq_some_iff.mp hc
      have hkind := hname t ht
      have hmem : t ∈ blockTokens keyword name? indent texts inner outdent ++ rest := by
        simp [blockTokens, ht]
      simpa [Content.ofToken, hkind, TokenKind.isBlock] using
        ⟨hts.names t hmem hkind, hone t hmem (.inr hkind)⟩
    · intro c hc
      obtain ⟨t, ht, rfl⟩ := List.mem_map.mp hc
      have hkind := htexts t ht
      have hmem : t ∈ blockTokens keyword name? indent texts inner outdent ++ rest := by
        simp [blockTokens, ht]
      simpa [Content.ofToken, hkind, TokenKind.isBlock] using
        ⟨hts.texts t hmem hkind, hone t hmem (.inl hkind)⟩
    · cases texts with
      | nil => simp
      | cons t texts =>
        have hkind := htexts t (by simp)
        have hclean := ((hchain.1 t (by simp)).1 hkind).resolve_left (by simp [hindent])
        simpa [Content.ofToken, hkind, TokenKind.isBlock] using hclean
    -- without texts and blocks, the outdent would stand right behind the indent
    · intro hempty hnil
      subst hnil
      have hinnernil : inner = [] := by cases hinner; rfl
      rw [List.map_eq_nil_iff.mp hempty, hinnernil] at hchain
      exact (hchain.1 outdent (by simp)).2 hindent houtdent
    · have hpart : inner <:+: blockTokens keyword name? indent texts inner outdent ++ rest :=
        ⟨keyword :: (name?.toList ++ indent :: texts), [outdent] ++ rest, by simp [blockTokens]⟩
      exact ihinner (isBlock_of_nestedKinds _) (hts.of_part hpart)
        fun t ht => hone t (hpart.subset ht)
    · have hpart : rest <:+: blockTokens keyword name? indent texts inner outdent ++ rest :=
        (List.suffix_append _ rest).isInfix
      exact ihrest hk (hts.of_part hpart) fun t ht => hone t (hpart.subset ht)

end Grammar

end PromptOutline
