import PromptOutline.Proofs.Building
import PromptOutline.Proofs.Levels
import PromptOutline.Proofs.Splicing

/-!
# Outlines without directives

An outline in which no line is a directive is read without other files. Its own tokens are all
that the stream gives, so it has a document exactly if they derive one.
-/

namespace PromptOutline

namespace Outline

/-- The keyword that a line starts with; a comment has none. -/
def lineKeyword? (line : List Char) : Option TokenKind :=
  if (lineContent line).head? = some '#' then none
  else Keyword.classify? (Text.firstWord (lineContent line)).1

/-- No line of an outline is a directive. -/
def Undirected (source : String) : Prop :=
  ∀ line ∈ Text.lines source.toList, ∀ kind ∈ lineKeyword? line, kind.isDirective = false

instance (source : String) : Decidable (Undirected source) :=
  decidable_of_iff
    ((Text.lines source.toList).all fun line => (lineKeyword? line).all (!·.isDirective))
    (by simp [Undirected, Option.all_eq_true])

/-- The keyword of a line with content that is no comment is that of its first word. -/
theorem lineKeyword?_of_content {line : List Char} {c : Char} {rest : List Char}
    (hline : lineContent line = c :: rest) (hcomment : c ≠ '#') :
    lineKeyword? line = Keyword.classify? (Text.firstWord (c :: rest)).1 := by
  rw [lineKeyword?, hline, if_neg (by simpa using hcomment)]

/-- A tab in front of a line is not part of its first word. -/
theorem firstWord_tab (rest : List Char) :
    Text.firstWord ('\t' :: rest) = Text.firstWord rest := by
  have htrim : Text.trimStart ('\t' :: rest) = Text.trimStart rest := by
    rw [Text.trimStart, List.dropWhile_cons_of_pos (by decide), Text.trimStart]
  rw [Text.firstWord, htrim, Text.firstWord]

private theorem ContentReading.undirected {unit : Int} {m : Margin} {p : Place} {column : Nat}
    {content : List Char} {r : Margin × List Token} (h : ContentReading unit m p column content r)
    (hplain : ∀ kind ∈ Keyword.classify? (Text.firstWord content).1, kind.isDirective = false) :
    ∀ t ∈ r.2, t.kind.isDirective = false := by
  intro t ht
  cases h with
  | rejected hshift =>
    rw [List.mem_singleton.mp ht]
    rcases kind_of_rejected hshift with he | he <;> rw [he] <;> rfl
  | keyword hkind hshift =>
    rcases List.mem_append.mp ht with ht | ht
    · rcases kinds_of_moved hshift t ht with he | he <;> rw [he] <;> rfl
    · rcases kinds_of_keywordTokens ht with he | he
      · rw [he]
        exact hplain _ hkind
      · rw [he]
        rfl
  | kept =>
    rw [List.mem_singleton.mp ht]
    rfl
  | text _ _ hshift =>
    rcases List.mem_append.mp ht with ht | ht
    · rcases kinds_of_moved hshift t ht with he | he <;> rw [he] <;> rfl
    · rw [List.mem_singleton.mp ht]
      rfl

private theorem LineReading.undirected {unit : Int} {m : Margin} {p : Place}
    {r : Margin × List Token}
    (h : LineReading unit m p r)
    (hplain : ∀ kind ∈ lineKeyword? p.line, kind.isDirective = false) :
    ∀ t ∈ r.2, t.kind.isDirective = false := by
  intro t ht
  cases h with
  | blank =>
    simp only [List.mem_ite_nil_right, List.mem_singleton] at ht
    rw [ht.2]
    rfl
  | comment => cases ht
  | tab hline hread =>
    rw [lineKeyword?_of_content hline (by decide), firstWord_tab] at hplain
    rcases List.mem_cons.mp ht with rfl | ht
    · rfl
    · exact hread.undirected hplain t ht
  | content hline hcomment htab hread =>
    rw [lineKeyword?_of_content hline hcomment] at hplain
    exact hread.undirected hplain t ht

/-- An outline without directives gives no directive. -/
theorem kinds_of_undirected {width : UInt64} {fileName source : String}
    (hplain : Undirected source) :
    ∀ t ∈ content width fileName source, Stream.isInner t.kind = false := by
  have hdirective : ∀ t ∈ content width fileName source, t.kind.isDirective = false := by
    intro t ht
    rcases List.mem_append.mp ht with ht | ht
    · refine readLines_invariant (fun _ _ ts => ∀ t ∈ ts, t.kind.isDirective = false) (by simp) ?_
        t ht
      intro line hline number seen m ts r hts hread u hu
      rcases List.mem_append.mp hu with hu | hu
      · exact hts u hu
      · exact hread.undirected (hplain line hline) u hu
    · rw [kind_of_mem_closingMarks ht]
      rfl
  intro t ht
  have hne : t.kind ≠ .endOfFile := by
    have hkind := kinds_of_content t ht
    intro he
    rw [he] at hkind
    cases hkind
  simp [Stream.isInner, hdirective t ht, hne]

end Outline

/-- The tokens of a document break no layout rule. -/
theorem Grammar.IsDocument.good {ts : List Token} {forest : List Tree}
    (h : Grammar.IsDocument ts forest) : ∀ t ∈ ts, Outline.isBadMark t.kind = false := by
  intro t ht
  have hkind := h.blocks.kinds_of_mem Grammar.isBlock_of_topKinds t ht
  cases htk : t.kind <;> simp_all [Outline.isBadMark, TokenKind.isBlock]

namespace Compile

open Grammar Outline

/-- Without directives, an outline is parsed by building its content. -/
theorem parseText_eq_build {source : String} (hplain : Undirected source) (w : Workspace)
    (width : UInt64) (searchPaths : List String) (fileName : String) :
    parseText w width searchPaths fileName source =
      Builder.build ((content width fileName source).map .token)
        (.finished (Token.endOfFile fileName ((Text.lines source.toList).length + 1))) := by
  have hrun : Stream.run w width
      { sources := { searchPaths }, opened := [tokens width fileName source] } =
      ((content width fileName source).map .token,
        .finished (Token.endOfFile fileName ((Text.lines source.toList).length + 1))) := by
    rw [tokens_eq_content, Stream.run_plain (kinds_of_undirected hplain) rfl,
      Stream.run_of_finished rfl, List.append_nil]
  rw [parseText, readStream, hrun]

/-- Nothing is left to close behind the tokens of an outline. -/
theorem closing_eq_nil {width : UInt64} (hwidth : PlainWidth width)
    {fileName source : String} {closing : List Token} {forest : List Tree}
    (hclosing : ∀ t ∈ closing, t.kind = .outdent)
    (h : IsDocument (content width fileName source ++ closing) forest) : closing = [] := by
  cases closing with
  | nil => rfl
  | cons t closing =>
    have hlevel := h.blocks.level?_eq isBlock_of_topKinds 0
    rw [level?_append, level?_content hwidth, Option.bind_some, level?,
      if_neg (by simp [hclosing t]), if_pos (hclosing t (by simp)), if_pos rfl] at hlevel
    cases hlevel

/-- An outline without directives has a document exactly if its tokens derive one. -/
theorem parseText_eq_ok_iff {width : UInt64} (hwidth : PlainWidth width) {source : String}
    (hplain : Undirected source) (w : Workspace) (searchPaths : List String) (fileName : String)
    (d : Document) :
    parseText w width searchPaths fileName source = .ok d ↔
      ∃ forest, IsDocument (content width fileName source) forest ∧ d = .ofForest forest := by
  have hbuild := parseText_eq_build hplain w width searchPaths fileName
  constructor
  · intro h
    rw [hbuild] at h
    have heof : ∀ t ∈ content width fileName source, t.kind ≠ .endOfFile := by
      intro t ht he
      have hinner := kinds_of_undirected hplain t ht
      rw [he] at hinner
      cases hinner
    obtain ⟨closing, forest, hclosing, hdoc⟩ := Builder.derivable_of_build heof rfl h
    have hnil := closing_eq_nil hwidth hclosing hdoc
    subst hnil
    rw [Builder.build_of_isDocument hclosing hdoc rfl] at h
    cases h
    rw [List.append_nil] at hdoc
    exact ⟨forest, hdoc, rfl⟩
  · rintro ⟨forest, hdoc, rfl⟩
    rw [hbuild]
    have hdoc' : IsDocument (content width fileName source ++ []) forest := by rwa [List.append_nil]
    exact Builder.build_of_isDocument (by simp) hdoc' rfl

end Compile

end PromptOutline
