import PromptOutline.Proofs.JoinedRows
import PromptOutline.Proofs.PlainOutline

/-!
# Lines with content

The lines of an outline that are neither blank nor comments: a keyword line in its one spelling, a
text line without its leading spaces. They are followed from the source to its tokens, line by
line, and from the tokens to the rows of the trees, block by block.
-/

namespace PromptOutline

/-- A line with content. -/
structure ContentLine where
  /-- The kind of the section that the line opens, if it opens one. -/
  top? : Option TokenKind
  text : List Char
  deriving Repr, DecidableEq

namespace ContentLine

/-- A line that opens no section. -/
def plain (text : List Char) : ContentLine := { top? := none, text }

/-- Lines of which the first may open a section. -/
def opened (top? : Option TokenKind) : List (List Char) → List ContentLine
  | [] => []
  | first :: rest => { top?, text := first } :: rest.map plain

/-- The lines of some rows have these rows as their texts. -/
@[simp] theorem map_text_opened (top? : Option TokenKind) (rows : List (List Char)) :
    (opened top? rows).map (·.text) = rows := by
  cases rows <;> simp [opened, plain, Function.comp_def]

private theorem opened_none (rows : List (List Char)) : opened none rows = rows.map plain := by
  cases rows <;> rfl

end ContentLine

namespace Outline

open Grammar Prompt ContentLine

/-- A keyword line in its one spelling. -/
def headText (kind : TokenKind) (name : List Char) : List Char :=
  kind.name.toList ++ [':'] ++ if name = [] then [] else ' ' :: name

/-- The content of a line. Blank lines and comments have none, and a keyword in the first column
opens a section. -/
def contentLine? (line : List Char) : Option ContentLine :=
  match lineContent line with
  | [] => none
  | '#' :: _ => none
  | content =>
    match Keyword.classify? (Text.firstWord content).1 with
    | some kind =>
      some { top? := if startColumn line = 1 then some kind else none,
             text := headText kind (Text.firstWord content).2 }
    | none => some (plain content)

/-- The lines with content of an outline. -/
def contentLines (source : String) : List ContentLine :=
  (Text.lines source.toList).filterMap contentLine?

/-- Rows without their leading spaces, those with nothing left aside. -/
def stripped (rows : List (List Char)) : List (List Char) := filled (rows.map lineContent)

/-- Stripped rows are stripped one by one. -/
@[simp] theorem stripped_append (rs qs : List (List Char)) :
    stripped (rs ++ qs) = stripped rs ++ stripped qs := by
  rw [stripped, List.map_append, filled_append, stripped, stripped]

/-- The first row is stripped by itself. -/
theorem stripped_cons (row : List Char) (rs : List (List Char)) :
    stripped (row :: rs) = stripped [row] ++ stripped rs := stripped_append [row] rs

/-- Empty rows have no content. -/
theorem stripped_filled (rs : List (List Char)) : stripped (filled rs) = stripped rs := by
  induction rs with
  | nil => rfl
  | cons row rs ih =>
    by_cases hrow : row = []
    · subst hrow
      exact ih
    · have hcons : filled (row :: rs) = [row] ++ filled rs := by simp [filled, hrow]
      rw [hcons, stripped_append, ih, ← stripped_cons]

/-- Rows that come in groups are stripped group by group. -/
theorem stripped_flatMap {α : Type} (f : α → List (List Char)) (xs : List α) :
    stripped (xs.flatMap f) = xs.flatMap fun x => stripped (f x) := by
  induction xs with
  | nil => rfl
  | cons x xs ih => rw [List.flatMap_cons, stripped_append, ih, List.flatMap_cons]

/-! ### The lines of tokens -/

/-- The kind of the section that a block at a level opens. -/
def topAt (level : Nat) (kind : TokenKind) : Option TokenKind :=
  if level = 0 then some kind else none

/-- The name that stands first among tokens. -/
def nameOf? (ts : List Token) : Option String :=
  (ts.head?.filter (·.kind = .keywordText)).map (·.text)

/-- The lines with content that tokens come from, from a level on. -/
def tokenLines (level : Nat) : List Token → List ContentLine
  | [] => []
  | t :: ts =>
    if t.kind = .indent then tokenLines (level + 1) ts
    else if t.kind = .outdent then tokenLines (level - 1) ts
    else if t.kind.isBlock then
      { top? := topAt level t.kind, text := headRow 0 t.kind (nameOf? ts) } :: tokenLines level ts
    else if t.kind = .text then (stripped [t.text.toList]).map plain ++ tokenLines level ts
    else tokenLines level ts

/-- No name stands first among tokens. -/
def Nameless (ts : List Token) : Prop := ∀ t ∈ ts.head?, t.kind ≠ .keywordText

private theorem Nameless.append {ts us : List Token} (hts : Nameless ts) (hus : Nameless us) :
    Nameless (ts ++ us) := by
  cases ts with
  | nil => exact hus
  | cons t ts => exact hts

private theorem nameless_of_forall {ts : List Token} (h : ∀ t ∈ ts, t.kind ≠ .keywordText) :
    Nameless ts :=
  fun t ht => h t (List.mem_of_mem_head? ht)

private theorem nameOf?_append {us : List Token} (hus : Nameless us) (ts : List Token) :
    nameOf? (ts ++ us) = nameOf? ts := by
  cases ts with
  | cons t ts => rfl
  | nil =>
    cases us with
    | nil => rfl
    | cons u us => simp [nameOf?, Option.filter, hus u rfl]

/-- Tokens behind tokens give the lines of both, if no name is cut off from its keyword. -/
theorem tokenLines_append {k l : Nat} {ts us : List Token} (hts : level? k ts = some l)
    (hus : Nameless us) : tokenLines k (ts ++ us) = tokenLines k ts ++ tokenLines l us := by
  induction ts generalizing k with
  | nil =>
    cases hts
    rfl
  | cons t ts ih =>
    rw [level?] at hts
    rw [List.cons_append, tokenLines, tokenLines, nameOf?_append hus]
    by_cases hindent : t.kind = .indent
    · rw [if_pos hindent] at hts ⊢
      rw [if_pos hindent]
      exact ih hts
    · rw [if_neg hindent] at hts ⊢
      rw [if_neg hindent]
      by_cases houtdent : t.kind = .outdent
      · rw [if_pos houtdent] at hts ⊢
        rw [if_pos houtdent]
        split at hts
        · cases hts
        · exact ih hts
      · rw [if_neg houtdent] at hts ⊢
        rw [if_neg houtdent, ih hts]
        split_ifs
        · rw [List.cons_append]
        · rw [List.append_assoc]
        · rfl

private theorem tokenLines_of_marks {ts : List Token}
    (h : ∀ t ∈ ts, t.kind = .indent ∨ t.kind = .outdent)
    (k : Nat) : tokenLines k ts = [] := by
  induction ts generalizing k with
  | nil => rfl
  | cons t ts ih =>
    have hrest (l : Nat) := ih (fun u hu => h u (by simp [hu])) l
    rcases h t (by simp) with he | he <;> simp [tokenLines, he, hrest]

private theorem tokenLines_of_texts {ts : List Token} (h : ∀ t ∈ ts, t.kind = .text) (k : Nat) :
    tokenLines k ts = (stripped (ts.map (·.text.toList))).map plain := by
  induction ts with
  | nil => rfl
  | cons t ts ih =>
    have hcons := stripped_cons t.text.toList (ts.map (·.text.toList))
    rw [tokenLines, h t (by simp), ih fun u hu => h u (by simp [hu]), List.map_cons, hcons,
      List.map_append]
    rfl

/-- The tokens of a keyword line give one line. -/
theorem tokenLines_keyword {keyword : Token} {name? : Option Token}
    (hkeyword : keyword.kind.isBlock = true) (hname : ∀ t ∈ name?, t.kind = .keywordText)
    (k : Nat) :
    tokenLines k (keyword :: name?.toList) =
      [{ top? := topAt k keyword.kind, text := headRow 0 keyword.kind (name?.map (·.text)) }] := by
  have hne : keyword.kind ≠ .indent ∧ keyword.kind ≠ .outdent := by
    constructor <;> intro he <;> rw [he] at hkeyword <;> cases hkeyword
  cases name? with
  | none => simp [tokenLines, hne, hkeyword, nameOf?]
  | some name =>
    have hkind := hname name rfl
    have hblock : TokenKind.keywordText.isBlock = false := rfl
    simp [tokenLines, hne, hkeyword, nameOf?, Option.filter, hkind, hblock]

/-- The tokens of a block give its head, its texts and the lines of the blocks in it. -/
theorem tokenLines_block {keyword indent outdent : Token} {name? : Option Token}
    {texts inner : List Token} (hkeyword : keyword.kind.isBlock = true)
    (hname : ∀ t ∈ name?, t.kind = .keywordText) (hindent : indent.kind = .indent)
    (htexts : ∀ t ∈ texts, t.kind = .text) (houtdent : outdent.kind = .outdent) (k : Nat)
    (hinner : level? (k + 1) inner = some (k + 1)) (hnameless : Nameless inner) :
    tokenLines k (blockTokens keyword name? indent texts inner outdent) =
      { top? := topAt k keyword.kind, text := headRow 0 keyword.kind (name?.map (·.text)) } ::
        ((stripped (texts.map (·.text.toList))).map plain ++ tokenLines (k + 1) inner) := by
  have hclose : Nameless [outdent] := nameless_of_forall (by simp [houtdent])
  have hbody : Nameless (texts ++ (inner ++ [outdent])) :=
    (nameless_of_forall fun t ht => by simp [htexts t ht]).append (hnameless.append hclose)
  have hopen : level? k [indent] = some (k + 1) := by simp [level?, hindent]
  have hmark (l : Nat) {t : Token} (ht : t.kind = .indent ∨ t.kind = .outdent) :
      tokenLines l [t] = [] := tokenLines_of_marks (by simpa using ht) l
  have hparts : blockTokens keyword name? indent texts inner outdent =
      (keyword :: name?.toList) ++ ([indent] ++ (texts ++ (inner ++ [outdent]))) := by
    simp [blockTokens]
  rw [hparts, tokenLines_append (level?_head hkeyword hname k)
      ((nameless_of_forall (by simp [hindent])).append hbody),
    tokenLines_append hopen hbody,
    tokenLines_append (level?_texts htexts (k + 1)) (hnameless.append hclose),
    tokenLines_append hinner hclose, tokenLines_keyword hkeyword hname, tokenLines_of_texts htexts,
    hmark k (.inl hindent), hmark (k + 1) (.inr houtdent)]
  simp

/-! ### The lines of trees -/

private theorem lineContent_headRow {kind : TokenKind} (hkind : kind.isBlock = true) (d : Nat)
    (name? : Option String) : lineContent (headRow d kind name?) = headRow 0 kind name? := by
  obtain ⟨-, -, c, rest, hname, hspace, -⟩ := word_of_isBlock hkind
  simp only [headRow, Prompt.margin, Nat.mul_zero, List.replicate_zero, List.nil_append,
    List.append_assoc, lineContent_spaces]
  rw [hname, List.cons_append, lineContent_of_head hspace]

/-- A heading is stripped to the one at the margin. -/
theorem stripped_headRow {kind : TokenKind} (hkind : kind.isBlock = true) (d : Nat)
    (name? : Option String) : stripped [headRow d kind name?] = [headRow 0 kind name?] := by
  have hne : headRow 0 kind name? ≠ [] := by simp [headRow]
  simp [stripped, filled, lineContent_headRow hkind, hne]

private theorem lineContent_textRow (d : Nat) (cs : List Char) :
    lineContent (textRow d cs) = lineContent cs := by
  unfold textRow
  split
  · next hcs => rw [hcs]
  · exact lineContent_spaces _ cs

/-- The lines with content among the rows of a tree at a level. -/
def treeLines (level : Nat) (t : Tree) : List ContentLine :=
  opened (topAt level t.content.kind) (stripped (rows level t))

/-- Only trees at the top open sections. -/
theorem flatMap_treeLines_succ (k : Nat) (ts : List Tree) :
    ts.flatMap (treeLines (k + 1)) = (stripped (rowsAll (k + 1) ts)).map plain := by
  induction ts with
  | nil => rfl
  | cons t ts ih =>
    rw [List.flatMap_cons, ih, rowsAll, stripped_append, List.map_append, treeLines,
      show topAt (k + 1) t.content.kind = none from rfl, opened_none]

/-- The rows of a block. -/
theorem rows_blockTree {keyword : Token} {name? : Option Token} {texts : List Token}
    {nested : List Tree} (hkeyword : keyword.kind.isBlock = true)
    (hname : ∀ t ∈ name?, t.kind = .keywordText)
    (htexts : ∀ t ∈ texts, t.kind = .text ∧ '\n' ∉ t.text.toList)
    (hnested : ∀ t ∈ nested, t.content.kind.isBlock = true) (d : Nat) :
    rows d (blockTree keyword name? texts nested) =
      headRow d keyword.kind (name?.map (·.text)) ::
        ((texts.map fun t => textRow (d + 1) t.text.toList) ++ rowsAll (d + 1) nested) := by
  have hvalue {t : Token} (h : t.kind.isBlock = false) : (Content.ofToken t).value = t.text := by
    simp [Content.ofToken, h]
  have hnames : ∀ c ∈ name?.map Content.ofToken, c.kind = .keywordText := by
    intro c hc
    obtain ⟨t, ht, rfl⟩ := Option.map_eq_some_iff.mp hc
    exact hname t ht
  have hlines : ∀ c ∈ texts.map Content.ofToken, c.kind = .text ∧ '\n' ∉ c.value.toList := by
    intro c hc
    obtain ⟨t, ht, rfl⟩ := List.mem_map.mp hc
    rw [hvalue (by rw [(htexts t ht).1]; rfl)]
    exact htexts t ht
  have hhead : (name?.map Content.ofToken).map (·.value) = name?.map (·.text) := by
    rw [Option.map_map]
    exact Option.map_congr fun t ht => hvalue (by rw [hname t ht]; rfl)
  have hbody : ((texts.map Content.ofToken).map fun c => textRow (d + 1) c.value.toList) =
      texts.map fun t => textRow (d + 1) t.text.toList := by
    rw [List.map_map]
    refine List.map_congr_left fun t ht => ?_
    rw [Function.comp_apply, hvalue (by rw [(htexts t ht).1]; rfl)]
  have hblock : (Content.ofToken keyword).kind.isBlock = true := hkeyword
  rw [blockTree_eq, rows_block hblock hnames hlines hnested, hhead, hbody]
  rfl

/-- The lines of a block: its head, its texts and the lines of the blocks in it. -/
theorem treeLines_block {keyword : Token} {name? : Option Token} {texts : List Token}
    {nested : List Tree} (hkeyword : keyword.kind.isBlock = true)
    (hname : ∀ t ∈ name?, t.kind = .keywordText)
    (htexts : ∀ t ∈ texts, t.kind = .text ∧ '\n' ∉ t.text.toList)
    (hnested : ∀ t ∈ nested, t.content.kind.isBlock = true) (k : Nat) :
    treeLines k (blockTree keyword name? texts nested) =
      { top? := topAt k keyword.kind, text := headRow 0 keyword.kind (name?.map (·.text)) } ::
        ((stripped (texts.map (·.text.toList))).map plain ++
          nested.flatMap (treeLines (k + 1))) := by
  have hbody : stripped (texts.map fun t => textRow (k + 1) t.text.toList) =
      stripped (texts.map (·.text.toList)) := by
    simp only [stripped, List.map_map, Function.comp_def, lineContent_textRow]
  rw [treeLines, rows_blockTree hkeyword hname htexts hnested, stripped_cons, stripped_append,
    hbody, stripped_headRow hkeyword, flatMap_treeLines_succ, kind_blockTree,
    List.singleton_append, opened, List.map_append]

/-! ### From lines to tokens -/

private theorem contentLine?_of_keyword {line rest : List Char} {c : Char} {kind : TokenKind}
    (hline : lineContent line = c :: rest) (hcomment : c ≠ '#')
    (hkind : Keyword.classify? (Text.firstWord (c :: rest)).1 = some kind) :
    contentLine? line = some { top? := if startColumn line = 1 then some kind else none,
                               text := headText kind (Text.firstWord (c :: rest)).2 } := by
  simp [contentLine?, hline, hcomment, hkind]

private theorem contentLine?_of_text {line rest : List Char} {c : Char}
    (hline : lineContent line = c :: rest) (hcomment : c ≠ '#')
    (hkind : Keyword.classify? (Text.firstWord (c :: rest)).1 = none) :
    contentLine? line = some (plain (c :: rest)) := by
  simp [contentLine?, hline, hcomment, hkind]

private theorem tokenLines_keywordTokens {kind : TokenKind} {word rest : List Char}
    (hkind : kind.isBlock = true) (p : Place) (column k : Nat) :
    Nameless (keywordTokens p column kind word rest) ∧
      tokenLines k (keywordTokens p column kind word rest) =
        [{ top? := topAt k kind, text := headText kind rest }] := by
  constructor
  · rintro t ⟨⟩ he
    have hname : kind = .keywordText := he
    rw [hname] at hkind
    cases hkind
  · let keyword := p.token kind (kind.spelling?.getD (String.ofList word)) column
    let name? : Option Token := if rest = [] then none
      else some (p.token .keywordText (String.ofList rest) (column + word.length + 1))
    have htokens : keywordTokens p column kind word rest = keyword :: name?.toList := by
      simp only [keywordTokens, keyword, name?]
      split <;> rfl
    have hkeyword : keyword.kind.isBlock = true := hkind
    have hname : ∀ t ∈ name?, t.kind = .keywordText := by
      simp only [name?]
      split <;> simp [Place.token]
    have hhead : headRow 0 kind (name?.map (·.text)) = headText kind rest := by
      simp only [headRow, headText, Prompt.margin, name?]
      split <;> simp [Place.token]
    rw [htokens, tokenLines_keyword hkeyword hname, ← hhead]
    rfl

private theorem tokenLines_textToken {p : Place} {c : Char} {rest : List Char} {column : Nat}
    (hline : lineContent p.line = c :: rest) (hcolumn : column ≤ startColumn p.line) (k : Nat) :
    Nameless [textToken p column] ∧ tokenLines k [textToken p column] = [plain (c :: rest)] := by
  constructor
  · exact nameless_of_forall (by simp [textToken, Place.token])
  · have hcontent : lineContent (p.line.drop (column - 1)) = c :: rest := by
      rw [drop_eq_spaces (Nat.sub_le_sub_right hcolumn 1), lineContent_spaces,
        lineContent_lineContent, hline]
    rw [tokenLines_of_texts (by simp [textToken, Place.token])]
    simp [textToken, Place.token, stripped, filled, hcontent]

/-- Marks have no line of their own, they only lead to the level of the column. -/
theorem tokenLines_moved {u k : Nat} {p : Place} {marks tail : List Token} (hu : 0 < u)
    (hshift : shift u (k * u + 1) p (startColumn p.line) = .moved marks) (htail : Nameless tail) :
    Nameless (marks ++ tail) ∧ ∃ l, startColumn p.line = l * u + 1 ∧
      tokenLines k (marks ++ tail) = tokenLines l tail := by
  have hkinds := kinds_of_moved hshift
  obtain ⟨l, hl, hcolumn⟩ := level?_moved hu (Nat.succ_pos _) hshift
  refine ⟨(nameless_of_forall fun t ht => ?_).append htail, l, hcolumn, ?_⟩
  · rcases hkinds t ht with he | he <;> simp [he]
  · rw [tokenLines_append hl htail, tokenLines_of_marks hkinds, List.nil_append]

/-- A line that is laid out well gives the tokens of its content. -/
theorem GoodReading.tokenLines {u k : Nat} {m : Margin} {p : Place} {r : Margin × List Token}
    (h : GoodReading u m p r) (hu : 0 < u) (hm : m.column = k * u + 1)
    (hplain : ∀ kind ∈ lineKeyword? p.line, kind.isDirective = false) :
    Nameless r.2 ∧ Outline.tokenLines k r.2 = (contentLine? p.line).toList := by
  cases h with
  | blank hline =>
    have hnone : contentLine? p.line = none := by simp [contentLine?, hline]
    rw [hnone]
    dsimp only
    split
    · exact ⟨nameless_of_forall (by simp [Place.token]),
        tokenLines_of_texts (by simp [Place.token]) k⟩
    · exact ⟨nameless_of_forall (by simp), rfl⟩
  | comment hline =>
    have hnone : contentLine? p.line = none := by simp [contentLine?, hline]
    rw [hnone]
    exact ⟨nameless_of_forall (by simp), rfl⟩
  | @keyword c rest kind marks hline hcomment htab hkind hshift =>
    have hblock : kind.isBlock = true := by
      rw [lineKeyword?_of_content hline hcomment] at hplain
      exact (Keyword.keyword?_of_classify? hkind).resolve_right (by simp [hplain kind hkind])
    obtain ⟨hnameless, l, hcolumn, hlines⟩ :=
      tokenLines_moved hu (hm ▸ hshift) (tokenLines_keywordTokens hblock p (startColumn p.line) 0).1
    refine ⟨hnameless, ?_⟩
    have htop : (if startColumn p.line = 1 then some kind else none) = topAt l kind := by
      have hzero : startColumn p.line = 1 ↔ l = 0 := by
        rw [hcolumn, Nat.add_eq_right, Nat.mul_eq_zero, or_iff_left (by omega)]
      simp only [topAt, hzero]
    rw [hlines, (tokenLines_keywordTokens hblock p (startColumn p.line) l).2,
      contentLine?_of_keyword hline hcomment hkind, htop]
    rfl
  | kept hline hcomment htab hkind hin hlt =>
    rw [contentLine?_of_text hline hcomment hkind]
    exact tokenLines_textToken hline (Nat.le_of_lt hlt) k
  | text hline hcomment htab hkind hin hshift =>
    obtain ⟨hnameless, l, -, hlines⟩ :=
      tokenLines_moved hu (hm ▸ hshift) (tokenLines_textToken hline (Nat.le_refl _) 0).1
    rw [contentLine?_of_text hline hcomment hkind, hlines]
    exact ⟨hnameless, (tokenLines_textToken hline (Nat.le_refl _) l).2⟩

/-- The tokens of a plain outline that is laid out well come from its lines with content. -/
theorem tokenLines_content {width : UInt64} (hwidth : PlainWidth width) {fileName source : String}
    (hplain : Undirected source)
    (hgood : ∀ t ∈ content width fileName source, isBadMark t.kind = false) :
    tokenLines 0 (content width fileName source) = contentLines source := by
  unfold content at hgood ⊢
  rw [signedUnit_eq hwidth] at hgood ⊢
  have hlines : ∃ k,
      level? 0 (readLines width.toNat fileName {} 1 (Text.lines source.toList)).2 = some k ∧
      (readLines width.toNat fileName {} 1 (Text.lines source.toList)).1.column =
        k * width.toNat + 1 ∧
      tokenLines 0 (readLines width.toNat fileName {} 1 (Text.lines source.toList)).2 =
        (Text.lines source.toList).filterMap contentLine? := by
    -- the level ties tokens to columns: level zero is the first column, where sections open
    refine readLines_invariant_of_good
      (fun seen m ts => ∃ k, level? 0 ts = some k ∧ m.column = k * width.toNat + 1 ∧
        tokenLines 0 ts = seen.filterMap contentLine?)
      (fun t ht => hgood t (List.mem_append_left _ ht)) ⟨0, rfl, by simp, rfl⟩ ?_
    rintro line hline number seen m ts r ⟨k, hk, hm, hts⟩ hread
    have hreading := readLine_reading width.toNat m { fileName, number, line }
    rw [readLine_of_good hread] at hreading
    obtain ⟨l, hl, hcolumn⟩ := hreading.level hwidth.1 hm
    obtain ⟨hnameless, hnew⟩ := hread.tokenLines hwidth.1 hm (hplain line hline)
    refine ⟨l, by rw [level?_append, hk, Option.bind_some, hl], hcolumn, ?_⟩
    rw [tokenLines_append hk hnameless, hts, hnew, List.filterMap_append]
    cases hc : contentLine? line <;> simp [hc]
  obtain ⟨k, hk, -, hts⟩ := hlines
  have hclosing (t : Token) (ht : t ∈ closingMarks (atLeastOne width).toNat fileName
      ((Text.lines source.toList).length + 1)
      (readLines width.toNat fileName {} 1 (Text.lines source.toList)).1.column) :
      t.kind = .outdent := kind_of_mem_closingMarks ht
  rw [tokenLines_append hk (nameless_of_forall fun t ht => by simp [hclosing t ht]), hts,
    tokenLines_of_marks (fun t ht => .inr (hclosing t ht)), List.append_nil, contentLines]

end Outline

namespace Grammar

open Outline Prompt ContentLine

private theorem Blocks.nameless {kinds : List TokenKind} {ts : List Token} {forest : List Tree}
    (h : Blocks kinds ts forest) (hk : ∀ k ∈ kinds, k.isBlock = true) : Nameless ts := by
  intro t ht he
  have hblock := hk _ (h.kind_of_head t ht)
  rw [he] at hblock
  cases hblock

/-- Blocks and their trees have the same lines. -/
theorem Blocks.tokenLines_eq {kinds : List TokenKind} {ts : List Token} {forest : List Tree}
    (h : Blocks kinds ts forest) (hk : ∀ k ∈ kinds, k.isBlock = true)
    (hline : ∀ t ∈ ts, CarriesText t → '\n' ∉ t.text.toList) (k : Nat) :
    tokenLines k ts = forest.flatMap (treeLines k) := by
  induction h generalizing k with
  | nil => rfl
  | @cons kinds keyword indent outdent name? texts inner rest nested others
      hkeyword hname hindent htexts hinner houtdent hrest ihinner ihrest =>
    have hblock : keyword.kind.isBlock = true := hk _ hkeyword
    have hnestedKinds := isBlock_of_nestedKinds keyword.kind
    have hlevel := hinner.level?_eq hnestedKinds (k + 1)
    have hsub : texts ++ inner ⊆ blockTokens keyword name? indent texts inner outdent ++ rest := by
      intro t ht
      rcases List.mem_append.mp ht with ht | ht <;> simp [blockTokens, ht]
    have hbody : ∀ t ∈ texts, t.kind = .text ∧ '\n' ∉ t.text.toList := fun t ht =>
      ⟨htexts t ht, hline t (hsub (List.mem_append_left _ ht)) (.inl (htexts t ht))⟩
    rw [tokenLines_append (level?_block hblock hname hindent htexts houtdent k hlevel)
        (hrest.nameless hk),
      tokenLines_block hblock hname hindent htexts houtdent k hlevel (hinner.nameless hnestedKinds),
      ihinner hnestedKinds (fun t ht => hline t (hsub (List.mem_append_right _ ht))) (k + 1),
      ihrest hk (fun t ht => hline t (List.mem_append_right _ ht)) k, List.flatMap_cons,
      treeLines_block hblock hname hbody fun t ht => hnestedKinds _ (hinner.kinds_of_trees t ht)]

end Grammar

end PromptOutline
