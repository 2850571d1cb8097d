import PromptOutline.Proofs.Contentless

/-!
# Blank lines between lines of text

Whether a blank line gives an empty text depends on the tokens before it alone: the last text or
keyword among them has to be a text. Every keyword counts, those of directives as well. So a blank
line between two lines of one text gives a token as long as another line of text follows on each
directive that stands before it.
-/

namespace PromptOutline.Outline

/-! ### Whether a run of text lines goes on -/

/-- Whether tokens end inside a run of text lines: a text leads into one, a keyword leads out. -/
def endsInText (inText : Bool) (ts : List Token) : Bool :=
  ts.foldl (fun inText t =>
    if t.kind = .text then true
    else if t.kind.isBlock || t.kind.isDirective then false else inText) inText

variable {unit : Int} {fileName : String} {m : Margin}

private theorem endsInText_append (inText : Bool) (ts us : List Token) :
    endsInText inText (ts ++ us) = endsInText (endsInText inText ts) us := List.foldl_append

private theorem endsInText_text {t : Token} (ht : t.kind = .text) (inText : Bool) :
    endsInText inText [t] = true := by simp [endsInText, ht]

/-- Tokens that are neither texts nor keywords lead neither in nor out. -/
theorem endsInText_of_neither {ts : List Token} (h : ∀ t ∈ ts, t.kind ≠ .text ∧ ¬ IsKeyword t)
    (inText : Bool) : endsInText inText ts = inText := by
  induction ts with
  | nil => rfl
  | cons t ts ih =>
    obtain ⟨htext, hkeyword⟩ := h t List.mem_cons_self
    have hfirst : endsInText inText [t] = inText := by
      simp only [IsKeyword, not_or, Bool.not_eq_true] at hkeyword
      simp [endsInText, htext, hkeyword]
    rw [← List.singleton_append, endsInText_append, hfirst,
      ih fun u hu => h u (List.mem_cons_of_mem t hu)]

private theorem endsInText_keyword {t : Token} (ht : IsKeyword t) (inText : Bool) :
    endsInText inText [t] = false := by
  have htext : t.kind ≠ .text := by
    intro he
    simp [IsKeyword, he, TokenKind.isBlock, TokenKind.isDirective] at ht
  have hkeyword : (t.kind.isBlock || t.kind.isDirective) = true := by simpa [IsKeyword] using ht
  simp only [endsInText, List.foldl_cons, List.foldl_nil, if_neg htext, if_pos hkeyword]

private theorem endsInText_keywordTokens {kind : TokenKind} {word : List Char}
    (hkind : Keyword.classify? word = some kind) (p : Place) (column : Nat) (rest : List Char)
    (inText : Bool) : endsInText inText (keywordTokens p column kind word rest) = false := by
  have hkeyword : IsKeyword (p.token kind (kind.spelling?.getD (String.ofList word)) column) :=
    Keyword.keyword?_of_classify? hkind
  rw [keywordTokens, ← List.singleton_append, endsInText_append, endsInText_keyword hkeyword]
  split
  · rfl
  · refine endsInText_of_neither (fun t ht => ?_) false
    rw [List.mem_singleton.mp ht]
    simp [IsKeyword, Place.token, TokenKind.isBlock, TokenKind.isDirective]

private theorem ContentReading.inText {p : Place} {column : Nat} {content : List Char}
    {r : Margin × List Token} (h : ContentReading unit m p column content r) :
    r.1.inText = endsInText m.inText r.2 := by
  cases h with
  | rejected hshift =>
    rw [endsInText_of_neither]
    intro t ht
    rw [List.mem_singleton.mp ht]
    rcases kind_of_rejected hshift with he | he <;>
      simp [IsKeyword, he, TokenKind.isBlock, TokenKind.isDirective]
  | keyword hkind hshift =>
    rw [endsInText_append, endsInText_keywordTokens hkind]
  | kept _ hin => rw [endsInText_text rfl, hin]
  | text => rw [endsInText_append, endsInText_text rfl]

private theorem LineReading.inText {p : Place} {r : Margin × List Token}
    (h : LineReading unit m p r) :
    r.1.inText = endsInText m.inText r.2 := by
  cases h with
  | blank => cases m.inText <;> simp [endsInText, Place.token]
  | comment => rfl
  | @tab rest r hline hread =>
    have htab : endsInText m.inText [p.token .tab "[Tab]" (startColumn p.line)] = m.inText := by
      simp [endsInText, Place.token, TokenKind.isBlock, TokenKind.isDirective]
    rw [← List.singleton_append, endsInText_append, htab, ← hread.inText]
  | content _ _ _ hread => exact hread.inText

/-- Lines end in a run of text lines as their tokens do. -/
theorem inText_readLines (unit : Int) (fileName : String) (m : Margin) (number : Nat)
    (ls : List (List Char)) :
    (readLines unit fileName m number ls).1.inText =
      endsInText m.inText (readLines unit fileName m number ls).2 := by
  induction ls generalizing m number with
  | nil => rfl
  | cons line ls ih =>
    rw [readLines, endsInText_append, ← (readLine_reading unit m _).inText]
    exact ih ..

/-! ### A blank line between texts -/

/-- Two lines of text in an outline with a blank line between them. No block starts between them,
none ends, and each directive before the blank line has another line of text behind it. -/
structure BlankBetween (width : UInt64) (fileName source : String) where
  before : List Token
  first : Token
  between : List Token
  last : Token
  behind : List Token
  /-- The number of the blank line. -/
  number : Nat
  tokens_eq : tokens width fileName source = before ++ first :: (between ++ last :: behind)
  first_text : first.kind = .text ∧ first.text ≠ ""
  last_text : last.kind = .text ∧ last.text ≠ ""
  inside : ∀ t ∈ between, t.kind.isBlock = false ∧ t.kind ≠ .indent ∧ t.kind ≠ .outdent
  is_blank : ((Text.lines source.toList)[number - 1]?).map lineContent = some []
  first_above : first.line < number
  last_below : number < last.line
  resumed : ∀ u ∈ between, u.kind.isDirective = true → u.line < number →
    ∃ t ∈ between, t.kind = .text ∧ u.line < t.line ∧ t.line < number

namespace BlankBetween

variable {width : UInt64} {source : String}

/-- The last text of tokens with one. -/
theorem exists_last_text {ts : List Token} (h : ∃ t ∈ ts, t.kind = .text) :
    ∃ xs t ys, ts = xs ++ t :: ys ∧ t.kind = .text ∧ ∀ u ∈ ys, u.kind ≠ .text := by
  induction ts with
  | nil => obtain ⟨t, ht, -⟩ := h; cases ht
  | cons t ts ih =>
    by_cases hrest : ∃ u ∈ ts, u.kind = .text
    · obtain ⟨xs, u, ys, rfl, hu, hys⟩ := ih hrest
      exact ⟨t :: xs, u, ys, rfl, hu, hys⟩
    · obtain ⟨u, hu, htext⟩ := h
      rcases List.mem_cons.mp hu with rfl | hu
      · exact ⟨[], u, ts, rfl, htext, fun v hv hv' => hrest ⟨v, hv, hv'⟩⟩
      · exact absurd ⟨u, hu, htext⟩ hrest

private theorem ascending (g : BlankBetween width fileName source) :
    (∀ t ∈ g.before, t.line ≤ g.first.line) ∧ Ascending (g.first :: g.between) ∧
      ∀ t ∈ g.behind, g.last.line ≤ t.line := by
  have hall := ascending_tokens width fileName source
  rw [g.tokens_eq] at hall
  obtain ⟨-, hrest, hbefore⟩ := List.pairwise_append.mp hall
  rw [← List.cons_append] at hrest
  obtain ⟨hfirst, hlast, -⟩ := List.pairwise_append.mp hrest
  exact ⟨fun t ht => hbefore t ht _ List.mem_cons_self, hfirst, (List.pairwise_cons.mp hlast).1⟩

/-- The text goes on up to the blank line. -/
theorem endsInText_above (g : BlankBetween width fileName source) (inText : Bool) :
    endsInText inText (g.first :: g.between.filter (·.line < g.number)) = true := by
  obtain ⟨xs, t, ys, hsplit, ht, hys⟩ := exists_last_text
    ⟨g.first, List.mem_cons_self (l := g.between.filter (·.line < g.number)), g.first_text.1⟩
  have hsorted : Ascending (xs ++ t :: ys) := by
    rw [← hsplit]
    exact g.ascending.2.1.sublist (List.filter_sublist.cons_cons g.first)
  -- a keyword behind the last text would have another text behind it
  have hkeyword : ∀ u ∈ ys, ¬ IsKeyword u := by
    intro u hu hkey
    have hmem : u ∈ g.first :: g.between.filter (·.line < g.number) := by simp [hsplit, hu]
    have hbetween : u ∈ g.between.filter (·.line < g.number) := by
      refine (List.mem_cons.mp hmem).resolve_left fun he => hys u hu ?_
      rw [he, g.first_text.1]
    obtain ⟨hu', hline⟩ := List.mem_filter.mp hbetween
    have hdirective : u.kind.isDirective = true :=
      hkey.resolve_left (by simp [(g.inside u hu').1])
    obtain ⟨v, hv, hvtext, hafter, habove⟩ := g.resumed u hu' hdirective (by simpa using hline)
    have hvmem : v ∈ xs ++ t :: ys := by
      rw [← hsplit]
      exact List.mem_cons_of_mem _ (List.mem_filter.mpr ⟨hv, by simpa using habove⟩)
    obtain ⟨-, hrest, hxs⟩ := List.pairwise_append.mp hsorted
    rcases List.mem_append.mp hvmem with hv | hv
    · exact absurd (hxs v hv u (List.mem_cons_of_mem t hu)) (Nat.not_le.mpr hafter)
    rcases List.mem_cons.mp hv with rfl | hv
    · exact absurd ((List.pairwise_cons.mp hrest).1 u hu) (Nat.not_le.mpr hafter)
    · exact hys v hv hvtext
  rw [hsplit, endsInText_append, ← List.singleton_append, endsInText_append, endsInText_text ht,
    endsInText_of_neither fun u hu => ⟨hys u hu, hkeyword u hu⟩]

private theorem filter_above {n : Nat} {ts : List Token} (h : ∀ t ∈ ts, t.line < n) :
    ts.filter (·.line < n) = ts := List.filter_eq_self.mpr fun t ht => decide_eq_true (h t ht)

private theorem filter_below {n : Nat} {ts : List Token} (h : ∀ t ∈ ts, n ≤ t.line) :
    ts.filter (·.line < n) = [] := List.filter_eq_nil_iff.mpr fun t ht => by simpa using h t ht

/-- The lines above the blank line end in the text. -/
theorem inText_above (g : BlankBetween width fileName source) {above below : List (List Char)}
    {line : List Char} (hlines : Text.lines source.toList = above ++ line :: below)
    (habove : above.length + 1 = g.number) :
    (readLines (signedUnit width) fileName {} 1 above).1.inText = true := by
  obtain ⟨htokens, hahead, hhere, hbehind⟩ := tokens_around width fileName hlines
  rw [habove] at htokens hahead hhere hbehind
  obtain ⟨hbefore, -, hafter⟩ := g.ascending
  -- the tokens of these lines are those above the blank line
  have hread : (readLines (signedUnit width) fileName {} 1 above).2 =
      g.before ++ g.first :: g.between.filter (·.line < g.number) := by
    have hcut := congrArg (List.filter (·.line < g.number)) (htokens.symm.trans g.tokens_eq)
    have hbehind' : ∀ t ∈ g.last :: g.behind, g.number ≤ t.line := by
      intro t ht
      rcases List.mem_cons.mp ht with rfl | ht
      · exact Nat.le_of_lt g.last_below
      · exact Nat.le_trans (Nat.le_of_lt g.last_below) (hafter t ht)
    rw [List.filter_append, filter_above hahead, filter_below, List.append_nil, List.filter_append,
      filter_above fun t ht => Nat.lt_of_le_of_lt (hbefore t ht) g.first_above,
      List.filter_cons, if_pos (decide_eq_true g.first_above), List.filter_append,
      filter_below hbehind', List.append_nil] at hcut
    · exact hcut
    · intro t ht
      rcases List.mem_append.mp ht with ht | ht
      · exact Nat.le_of_eq (hhere t ht).symm
      · obtain ⟨u, hu, rfl⟩ := List.mem_map.mp ht
        exact Nat.le_succ_of_le (hbehind u hu)
  rw [inText_readLines, hread, endsInText_append, g.endsInText_above]

/-- A token of the blank line is between the two lines. -/
theorem mem_between (g : BlankBetween width fileName source) {t : Token}
    (ht : t ∈ tokens width fileName source) (hline : t.line = g.number) : t ∈ g.between := by
  obtain ⟨hbefore, -, hafter⟩ := g.ascending
  have habove := g.first_above
  have hbelow := g.last_below
  rw [g.tokens_eq] at ht
  rcases List.mem_append.mp ht with ht | ht
  · exact absurd (hbefore t ht) (by omega)
  rcases List.mem_cons.mp ht with rfl | ht
  · omega
  rcases List.mem_append.mp ht with ht | ht
  · exact ht
  rcases List.mem_cons.mp ht with rfl | ht
  · omega
  · exact absurd (hafter t ht) (by omega)

/-- The blank line gives an empty text between the two lines. -/
theorem exists_empty (g : BlankBetween width fileName source) :
    ∃ e ∈ g.between, e.kind = .text ∧ e.text = "" ∧ e.line = g.number := by
  obtain ⟨line, hline, hblank⟩ := Option.map_eq_some_iff.mp g.is_blank
  obtain ⟨above, below, hlength, hlines, -⟩ := exists_around hline
  have habove : above.length + 1 = g.number := by
    have hpos := Nat.zero_lt_of_lt g.first_above
    omega
  have hin := g.inText_above hlines habove
  obtain ⟨htokens, -⟩ := tokens_around width fileName hlines
  let m := (readLines (signedUnit width) fileName {} 1 above).1
  let e := (Place.mk fileName (above.length + 1) line).token .text "" m.column
  have hown : e ∈ (readLine (signedUnit width) m ⟨fileName, above.length + 1, line⟩).2 := by
    rw [lineContent] at hblank
    simp only [readLine, hblank, hin, if_true, List.mem_singleton, e, m]
  have he : e ∈ tokens width fileName source := by
    rw [htokens]
    exact List.mem_append_right _ (List.mem_append_left _ hown)
  exact ⟨e, g.mem_between he habove, rfl, rfl, habove⟩

end BlankBetween

end PromptOutline.Outline
