import PromptOutline.Proofs.Levels
import PromptOutline.Token.Queue

/-!
# Balanced indentation

The marks of an outline are balanced like brackets: never is a level closed that was not open, and
at the end all are closed. In between, whatever starts a line stands right of the first column by
the levels that are open before it. Lines that are rejected, kept, blank or marked for a tab are no
exception.
-/

namespace PromptOutline.Outline

open Grammar (level? level?_append)

/-! ### Levels as numbers of marks -/

/-- The number of marks for a level more. -/
def indents (ts : List Token) : Nat := ts.countP (·.kind == .indent)

/-- The number of marks for a level less. -/
def outdents (ts : List Token) : Nat := ts.countP (·.kind == .outdent)

/-- The level that tokens lead to is what their marks open and do not close. -/
theorem indents_of_level? {k l : Nat} {ts : List Token} (h : level? k ts = some l) :
    k + indents ts = l + outdents ts := by
  induction ts generalizing k with
  | nil =>
    cases h
    rfl
  | cons t ts ih =>
    rw [level?] at h
    simp only [indents, outdents, List.countP_cons, beq_iff_eq] at ih ⊢
    split at h
    · next hindent =>
      have hrest := ih h
      simp only [hindent, if_true, reduceCtorEq, if_false]
      omega
    · next hindent =>
      split at h
      · next houtdent =>
        split at h
        · cases h
        · have hrest := ih h
          simp only [houtdent, if_true, reduceCtorEq, if_false]
          omega
      · next houtdent =>
        have hrest := ih h
        simp only [hindent, houtdent, if_false]
        omega

/-- Where all tokens lead to a level, so do the first ones. -/
theorem exists_level?_of_append {k l : Nat} {before after : List Token}
    (h : level? k (before ++ after) = some l) : ∃ j, level? k before = some j := by
  rw [level?_append] at h
  obtain ⟨j, hj, -⟩ := Option.bind_eq_some_iff.mp h
  exact ⟨j, hj⟩

/-! ### Columns along lines -/

/-- Kinds of tokens that start the content of a line. -/
def startsContent (k : TokenKind) : Bool := k.isBlock || k.isDirective || k == .text

/-- What starts the content of a line stands at the column of its level, from level `k` on. -/
def AtLevels (u k : Nat) (ts : List Token) : Prop :=
  ∀ before t after, ts = before ++ t :: after → startsContent t.kind = true →
    ∃ l, level? k before = some l ∧ t.column = l * u + 1

private theorem atLevels_of_forall {u k : Nat} {ts : List Token}
    (h : ∀ t ∈ ts, startsContent t.kind = false) : AtLevels u k ts := by
  rintro before t after rfl ht
  rw [h t (by simp)] at ht
  cases ht

private theorem atLevels_cons {u k : Nat} {t : Token} {ts : List Token} (ht : t.column = k * u + 1)
    (h : ∀ v ∈ ts, startsContent v.kind = false) : AtLevels u k (t :: ts) := by
  intro before v after heq hv
  cases before with
  | nil =>
    cases heq
    exact ⟨k, rfl, ht⟩
  | cons b before =>
    cases heq
    rw [h v (by simp)] at hv
    cases hv

private theorem AtLevels.append {u k l : Nat} {ts us : List Token} (hts : AtLevels u k ts)
    (hlevel : level? k ts = some l) (hus : AtLevels u l us) : AtLevels u k (ts ++ us) := by
  intro before t after heq ht
  rcases List.append_eq_append_iff.mp heq with ⟨between, rfl, hsplit⟩ | ⟨between, rfl, hsplit⟩
  · obtain ⟨j, hj, hcolumn⟩ := hus between t after hsplit ht
    exact ⟨j, by rw [level?_append, hlevel, Option.bind_some, hj], hcolumn⟩
  · cases between with
    | nil =>
      rw [List.append_nil] at hlevel
      obtain ⟨j, hj, hcolumn⟩ := hus [] t after (by simpa using hsplit.symm) ht
      cases hj
      exact ⟨l, hlevel, hcolumn⟩
    | cons b between =>
      cases hsplit
      exact hts before t between rfl ht

private theorem startsContent_of_mark {t : Token} (h : t.kind = .indent ∨ t.kind = .outdent) :
    startsContent t.kind = false := by
  rcases h with he | he <;> rw [he] <;> rfl

/-- The marks in front of a line's content lead to the level of its column. -/
theorem atLevels_moved {u k column : Nat} {p : Place} {marks : List Token} {t : Token}
    {ts : List Token} (hu : 0 < u) (hcolumn : 0 < column)
    (hshift : shift u (k * u + 1) p column = .moved marks) (ht : t.column = column)
    (h : ∀ v ∈ ts, startsContent v.kind = false) : AtLevels u k (marks ++ t :: ts) := by
  obtain ⟨l, hl, hc⟩ := level?_moved hu hcolumn hshift
  have hmarks : AtLevels u k marks :=
    atLevels_of_forall fun v hv => startsContent_of_mark (kinds_of_moved hshift v hv)
  exact hmarks.append hl (atLevels_cons (ht.trans hc) h)

private theorem ContentReading.atLevels {u k : Nat} {m : Margin} {p : Place} {column : Nat}
    {content : List Char} {r : Margin × List Token} (hu : 0 < u) (hm : m.column = k * u + 1)
    (hcolumn : 0 < column) (h : ContentReading u m p column content r) : AtLevels u k r.2 := by
  cases h with
  | rejected hshift =>
    apply atLevels_of_forall
    intro t ht
    rw [List.mem_singleton.mp ht]
    rcases kind_of_rejected hshift with he | he <;> rw [he] <;> rfl
  | keyword hkind hshift =>
    rw [hm] at hshift
    apply atLevels_moved hu hcolumn hshift rfl
    intro t ht
    simp only [List.mem_ite_nil_left, List.mem_singleton] at ht
    rw [ht.2]
    rfl
  | kept => exact atLevels_cons hm (by simp)
  | text _ _ hshift =>
    rw [hm] at hshift
    exact atLevels_moved hu hcolumn hshift rfl (by simp)

/-- A line from a level on: its content starts at the column of the level that its marks lead to. -/
theorem LineReading.atLevels {u k : Nat} {m : Margin} {p : Place} {r : Margin × List Token}
    (hu : 0 < u) (hm : m.column = k * u + 1) (h : LineReading u m p r) : AtLevels u k r.2 := by
  cases h with
  | blank =>
    split
    · exact atLevels_cons hm (by simp)
    · exact atLevels_of_forall (by simp)
  | comment => exact atLevels_of_forall (by simp)
  | tab _ hread =>
    have htab : AtLevels u k [p.token .tab "[Tab]" (startColumn p.line)] :=
      atLevels_of_forall (by simp [Place.token, startsContent, TokenKind.isBlock,
        TokenKind.isDirective])
    exact htab.append rfl (hread.atLevels hu hm (startColumn_pos p.line))
  | content _ _ _ hread => exact hread.atLevels hu hm (startColumn_pos p.line)

/-- What starts the content of a line of an outline stands at the column of its level. -/
theorem atLevels_content {width : UInt64} (hwidth : PlainWidth width) (fileName source : String) :
    AtLevels width.toNat 0 (content width fileName source) := by
  unfold content
  rw [signedUnit_eq hwidth]
  obtain ⟨⟨k, hlevel, -⟩, hlines⟩ :
      (∃ k, level? 0 (readLines width.toNat fileName {} 1 (Text.lines source.toList)).2 = some k ∧
        (readLines width.toNat fileName {} 1 (Text.lines source.toList)).1.column =
          k * width.toNat + 1) ∧
      AtLevels width.toNat 0
        (readLines width.toNat fileName {} 1 (Text.lines source.toList)).2 := by
    refine readLines_invariant
      (fun _ m ts => (∃ k, level? 0 ts = some k ∧ m.column = k * width.toNat + 1) ∧
        AtLevels width.toNat 0 ts) ⟨⟨0, rfl, by simp⟩, atLevels_of_forall (by simp)⟩ ?_
    rintro line - number seen m ts r ⟨⟨k, hk, hm⟩, hts⟩ hread
    obtain ⟨l, hl, hcolumn⟩ := hread.level hwidth.1 hm
    refine ⟨⟨l, by rw [level?_append, hk, Option.bind_some, hl], hcolumn⟩, ?_⟩
    exact hts.append hk (hread.atLevels hwidth.1 hm)
  refine hlines.append hlevel (atLevels_of_forall fun t ht => ?_)
  exact startsContent_of_mark (.inr (kind_of_mem_closingMarks ht))

/-! ### Whole outlines -/

/-- The queue of an outline hands out its tokens and nothing behind the mark for the end. -/
theorem drain_tokens (width : UInt64) (fileName source : String) :
    (TokenQueue.ofTokens fileName (tokens width fileName source)).drain.1 =
      tokens width fileName source := by
  have hlast : (tokens width fileName source).getLast?.map Token.kind = some .endOfFile := by
    rw [tokens_eq_content, List.getLast?_append]
    rfl
  simp only [TokenQueue.drain, TokenQueue.ofTokens, hlast, beq_self_eq_true, if_true]

/-- All marks of an outline together lead back to level zero. -/
theorem level?_tokens {width : UInt64} (hwidth : PlainWidth width) (fileName source : String) :
    level? 0 (tokens width fileName source) = some 0 := by
  rw [tokens_eq_content, level?_append, level?_content hwidth, Option.bind_some]
  rfl

private theorem atLevels_tokens {width : UInt64} (hwidth : PlainWidth width)
    (fileName source : String) :
    AtLevels width.toNat 0 (tokens width fileName source) := by
  rw [tokens_eq_content]
  refine (atLevels_content hwidth fileName source).append (level?_content hwidth ..) ?_
  apply atLevels_of_forall
  intro t ht
  rw [List.mem_singleton.mp ht]
  rfl

/-- The width that lines are read with: a width of zero is read as one. -/
theorem exists_plainWidth {width : UInt64} (hwidth : width.toNat ≤ 0x7fffffffffffffff) :
    ∃ plain, PlainWidth plain ∧ plain.toNat = max width.toNat 1 ∧
      tokens width = tokens plain := by
  by_cases hzero : width = 0
  · subst hzero
    exact ⟨1, ⟨Nat.le_refl _, by decide⟩, rfl, rfl⟩
  · have hpos : 0 < width.toNat := by
      apply Nat.pos_of_ne_zero
      intro h
      exact hzero (UInt64.toNat_inj.mp h)
    exact ⟨width, ⟨hpos, hwidth⟩, by omega, rfl⟩

/-- No prefix of the tokens of an outline closes more levels than it opens, and all of them together
close as many as they open. The mark for the end stands last and nowhere else. What starts the
content of a line stands one unit right of the first column for each level that is open before it,
where a width of zero counts as one. -/
theorem indentation_balanced {width : UInt64} (hwidth : width.toNat ≤ 0x7fffffffffffffff)
    (fileName source : String) :
    (TokenQueue.ofTokens fileName (tokens width fileName source)).drain.1 =
        tokens width fileName source ∧
      (∀ before, before <+: tokens width fileName source → outdents before ≤ indents before) ∧
      outdents (tokens width fileName source) = indents (tokens width fileName source) ∧
      (∃ body ending, tokens width fileName source = body ++ [ending] ∧
        ending.kind = .endOfFile ∧ ∀ t ∈ body, t.kind ≠ .endOfFile) ∧
      ∀ before t after, tokens width fileName source = before ++ t :: after →
        t.kind ∈ [.role, .context, .action, .includeFile, .embedFiles, .text] →
        ∃ k, indents before = outdents before + k ∧ t.column = k * max width.toNat 1 + 1 := by
  obtain ⟨plain, hplain, hunit, heq⟩ := exists_plainWidth hwidth
  rw [← hunit, heq]
  have hlevel := level?_tokens hplain fileName source
  refine ⟨drain_tokens .., ?_, ?_, ?_, ?_⟩
  · rintro before ⟨after, hafter⟩
    rw [← hafter] at hlevel
    obtain ⟨j, hj⟩ := exists_level?_of_append hlevel
    have hcount := indents_of_level? hj
    omega
  · have hcount := indents_of_level? hlevel
    omega
  · refine ⟨content plain fileName source, _, tokens_eq_content .., rfl, fun t ht hkind => ?_⟩
    have hline := kinds_of_content t ht
    rw [hkind] at hline
    cases hline
  · intro before t after hsplit ht
    have hstarts : startsContent t.kind = true := by
      simp only [List.mem_cons, List.not_mem_nil, or_false] at ht
      rcases ht with he | he | he | he | he | he <;> rw [he] <;> rfl
    obtain ⟨k, hk, hcolumn⟩ := atLevels_tokens hplain fileName source before t after hsplit hstarts
    have hcount := indents_of_level? hk
    exact ⟨k, by omega, hcolumn⟩

/-- An outline with a directive two levels in, a text that keeps its extra spaces, a line at no
level and a tab. -/
def raggedOutline : String := "Context:\n    Include: a\n  b\n      c\n d\n  \te\nRole:"

/-- Read with two spaces for a level, that outline opens two levels and closes both. The text that
keeps its spaces stands where the text before it does. -/
theorem indentation_balanced_ragged :
    (tokens 2 "plan" raggedOutline).map (fun t => (t.kind, t.column)) =
        [(.context, 1), (.indent, 5), (.indent, 5), (.includeFile, 5), (.keywordText, 14),
          (.outdent, 3), (.text, 3), (.text, 3), (.badOutdent, 2), (.tab, 3), (.text, 3),
          (.outdent, 1), (.role, 1), (.endOfFile, 1)] ∧
      outdents (tokens 2 "plan" raggedOutline) = indents (tokens 2 "plan" raggedOutline) ∧
      ∀ before t after, tokens 2 "plan" raggedOutline = before ++ t :: after →
        t.kind ∈ [.role, .context, .action, .includeFile, .embedFiles, .text] →
        ∃ k, indents before = outdents before + k ∧ t.column = k * 2 + 1 := by
  obtain ⟨-, -, htotal, -, hcolumns⟩ :=
    indentation_balanced (by decide : (2 : UInt64).toNat ≤ _) "plan" raggedOutline
  exact ⟨by decide +kernel, htotal, hcolumns⟩

end PromptOutline.Outline
