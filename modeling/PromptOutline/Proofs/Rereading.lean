import PromptOutline.Proofs.PlainOutline
import PromptOutline.Proofs.Printable

/-!
# Prompts read as outlines

The rows of printable trees, read as an outline with four spaces for each level, give the same
trees again, places aside. The margin of the reading follows the depth of the trees: a row that
opens a block closes the blocks below its depth, and the rows below it open exactly one level
more.
-/

namespace PromptOutline

/-- What a node holds, its place aside. -/
def Content.bare (c : Content) : Content := { c with line := 0, column := 0 }

private theorem Content.bare_ofToken {t : Token} {c : Content} (hkind : t.kind = c.kind)
    (hblock : c.kind.isBlock = false) (hform : c.form = .line)
    (htext : t.text.toList = c.value.toList) : (Content.ofToken t).bare = c.bare := by
  have hvalue : t.text = c.value := String.toList_inj.mp htext
  cases c
  simp_all [Content.bare, Content.ofToken]

namespace Tree

mutual

/-- A tree without places. -/
def bare : Tree → Tree
  | node c cs => node c.bare (bareAll cs)

/-- Neighbouring trees without places. -/
def bareAll : List Tree → List Tree
  | [] => []
  | t :: ts => bare t :: bareAll ts

end

/-- Places are left out tree by tree. -/
theorem bareAll_eq_map (ts : List Tree) : bareAll ts = ts.map bare := by
  induction ts with
  | nil => rfl
  | cons t ts ih => rw [bareAll, ih, List.map_cons]

private theorem kind_bare (t : Tree) : t.bare.content.kind = t.content.kind := by
  cases t
  rfl

/-- Trees that differ only in places are of the same kinds. -/
theorem kinds_of_bareAll {ts us : List Tree} (h : bareAll ts = bareAll us) :
    ts.map (·.content.kind) = us.map (·.content.kind) := by
  rw [bareAll_eq_map, bareAll_eq_map] at h
  have hmap := congrArg (List.map (·.content.kind)) h
  simpa only [List.map_map, Function.comp_def, kind_bare] using hmap

/-- Trees that differ only in places have first trees of a kind that differ only in places. -/
theorem find?_of_bareAll {ts us : List Tree} (h : bareAll ts = bareAll us) (kind : TokenKind) :
    (ts.find? (·.content.kind = kind)).map bare = (us.find? (·.content.kind = kind)).map bare := by
  have hfind (vs : List Tree) : (vs.find? (·.content.kind = kind)).map bare =
      (bareAll vs).find? (·.content.kind = kind) := by
    rw [bareAll_eq_map, List.find?_map]
    simp only [Function.comp_def, kind_bare]
  rw [hfind, hfind, h]

private theorem bareAll_append (ts us : List Tree) :
    bareAll (ts ++ us) = bareAll ts ++ bareAll us := by
  simp only [bareAll_eq_map, List.map_append]

end Tree

namespace Outline

open Prompt Grammar

/-! ### Lines behind lines -/

/-- The first line is read by itself, and the others from where it leaves the margin. -/
theorem readLines_cons {unit : Int} {fileName : String} {m m' last : Margin} {number : Nat}
    {line : List Char} {rest : List (List Char)} {ts us : List Token}
    (hline : readLine unit m { fileName, number, line } = (m', ts))
    (hrest : readLines unit fileName m' (number + 1) rest = (last, us)) :
    readLines unit fileName m number (line :: rest) = (last, ts ++ us) := by
  simp only [readLines, hline, hrest]

/-- Lines are read in two portions, the second from where the first one leaves the margin. -/
theorem readLines_append {unit : Int} {fileName : String} {m m' last : Margin} {number : Nat}
    {ls rs : List (List Char)} {ts us : List Token}
    (hls : readLines unit fileName m number ls = (m', ts))
    (hrs : readLines unit fileName m' (number + ls.length) rs = (last, us)) :
    readLines unit fileName m number (ls ++ rs) = (last, ts ++ us) := by
  induction ls generalizing m number ts with
  | nil =>
    cases hls
    exact hrs
  | cons l ls ih =>
    rw [List.length_cons, Nat.add_comm ls.length, ← Nat.add_assoc] at hrs
    cases hl : readLine unit m { fileName, number, line := l } with
    | mk m₁ ts₁ =>
      cases hr : readLines unit fileName m₁ (number + 1) ls with
      | mk m₂ ts₂ =>
        rw [readLines_cons hl hr] at hls
        cases hls
        rw [List.cons_append, readLines_cons hl (ih hr hrs), List.append_assoc]

/-! ### Rows that open a block -/

private theorem firstWord_append {word rest : List Char}
    (hword : ∀ c ∈ word, Text.isBlank c = false)
    (hne : word ≠ []) (hrest : ∀ c ∈ rest.head?, Text.isBlank c = true) :
    Text.firstWord (word ++ rest) = (word, Text.trimStart rest) := by
  have htrim : Text.trimStart (word ++ rest) = word ++ rest := by
    obtain ⟨c, word, rfl⟩ := List.exists_cons_of_ne_nil hne
    rw [Text.trimStart, List.cons_append, List.dropWhile_cons_of_neg (by simp [hword c])]
  have hdrop : rest.dropWhile (!Text.isBlank ·) = rest := by
    cases rest with
    | nil => rfl
    | cons c rest => exact List.dropWhile_cons_of_neg (by simp [hrest c rfl])
  have htake : rest.takeWhile (!Text.isBlank ·) = [] := by
    cases rest with
    | nil => rfl
    | cons c rest => exact List.takeWhile_cons_of_neg (by simp [hrest c rfl])
  have hall : ∀ c ∈ word, (!Text.isBlank c) = true := fun c hc => by simp [hword c hc]
  rw [Text.firstWord, htrim, List.takeWhile_append_of_pos hall, List.dropWhile_append_of_pos hall,
    htake, hdrop, List.append_nil]

/-- The words of a row that opens a block. -/
theorem firstWord_headRow {kind : TokenKind} {name? : Option String} (hkind : kind.isBlock = true)
    (hname : ∀ s ∈ name?, IsNameText s.toList) :
    Text.firstWord (kind.name.toList ++ [':'] ++
        (name?.map fun name => ' ' :: name.toList).getD []) =
      (kind.name.toList ++ [':'], (name?.map (·.toList)).getD []) := by
  have hword := (word_of_isBlock hkind).1
  cases name? with
  | none => exact firstWord_append hword (by simp) (by simp)
  | some name =>
    obtain ⟨c, rest, hcs, hblank⟩ := hname name rfl
    have htrim : Text.trimStart (' ' :: name.toList) = name.toList := by
      rw [Text.trimStart, List.dropWhile_cons_of_pos (by decide), hcs,
        List.dropWhile_cons_of_neg (by simp [hblank])]
    have hblank : ∀ a ∈ (' ' :: name.toList).head?, Text.isBlank a = true := by
      rintro a ⟨⟩
      decide
    rw [Option.map_some, Option.getD_some, firstWord_append hword (by simp) hblank, htrim]
    rfl

/-- What stands in a row that opens a block, and where. -/
theorem content_headRow {kind : TokenKind} {name? : Option String} (hkind : kind.isBlock = true)
    (hname : ∀ s ∈ name?, IsNameText s.toList) (d : Nat) :
    startColumn (headRow d kind name?) = 4 * d + 1 ∧
      ∃ c rest, lineContent (headRow d kind name?) = c :: rest ∧ c ≠ '#' ∧ c ≠ '\t' ∧
        Text.firstWord (c :: rest) =
          (kind.name.toList ++ [':'], (name?.map (·.toList)).getD []) := by
  obtain ⟨-, -, c, rest, hkindname, hspace, hcomment, htab⟩ := word_of_isBlock hkind
  have hfirst := firstWord_headRow hkind hname
  generalize htail : (name?.map fun name => ' ' :: name.toList).getD [] = tail at hfirst
  have hrow : headRow d kind name? =
      List.replicate (4 * d) ' ' ++ (kind.name.toList ++ [':'] ++ tail) := by
    simp [headRow, Prompt.margin, htail]
  have hcons : kind.name.toList ++ [':'] ++ tail = c :: (rest ++ [':'] ++ tail) := by
    simp [hkindname]
  rw [hcons] at hrow hfirst
  refine ⟨?_, c, rest ++ [':'] ++ tail, ?_, hcomment, htab, hfirst⟩
  · rw [hrow, startColumn_spaces, startColumn, List.takeWhile_cons_of_neg (by simpa)]
    rfl
  · rw [hrow, lineContent_spaces, lineContent_of_head hspace]

/-- A row that opens a block gives, behind the marks for its column, the keyword and the name. -/
theorem readLine_headRow {fileName : String} {m : Margin} {number d : Nat} {kind : TokenKind}
    {name? : Option String} {marks : List Token} (hkind : kind.isBlock = true)
    (hname : ∀ s ∈ name?, IsNameText s.toList)
    (hshift : shift ((4 : Nat) : Int) m.column
      { fileName, number, line := headRow d kind name? } (4 * d + 1) = .moved marks) :
    ∃ (keyword : Token) (token? : Option Token),
      readLine ((4 : Nat) : Int) m { fileName, number, line := headRow d kind name? } =
        ({ column := 4 * d + 1, inText := false }, marks ++ keyword :: token?.toList) ∧
      keyword.kind = kind ∧ (∀ t ∈ token?, t.kind = .keywordText) ∧
      token?.map (·.text.toList) = name?.map (·.toList) := by
  obtain ⟨hcolumn, c, rest, hcontent, hcomment, htab, hfirst⟩ := content_headRow hkind hname d
  have hgood : GoodReading ((4 : Nat) : Int) m { fileName, number, line := headRow d kind name? }
      _ :=
    .keyword hcontent hcomment htab (by rw [hfirst]; exact (word_of_isBlock hkind).2.1)
      (by rw [hcolumn]; exact hshift)
  have hread := readLine_of_good hgood
  rw [hcolumn, hfirst] at hread
  cases name? with
  | none => exact ⟨_, none, hread, rfl, by simp, rfl⟩
  | some name =>
    obtain ⟨a, as, hcs, -⟩ := hname name rfl
    rw [keywordTokens, if_neg (by simp [hcs])] at hread
    refine ⟨_, some _, hread, rfl, ?_, ?_⟩
    · simp [Place.token]
    · simp [Place.token]

/-! ### Rows of text -/

private theorem textRow_eq {d : Nat} {cs : List Char} (hne : cs ≠ []) :
    textRow d cs = List.replicate (4 * d) ' ' ++ cs := by
  rw [textRow, if_neg hne, Prompt.margin]

private theorem textToken_textRow {fileName : String} {number d : Nat} {cs : List Char}
    (hne : cs ≠ []) :
    (textToken { fileName, number, line := textRow d cs } (4 * d + 1)).text.toList = cs := by
  have hdrop : (textRow d cs).drop (4 * d) = cs := by
    rw [textRow_eq hne]
    exact List.drop_left' (List.length_replicate ..)
  simp [textToken, Place.token, hdrop]

/-- In a run of text, every row of text gives its text. -/
theorem readLine_textRow {fileName : String} {number d : Nat} {cs : List Char} (hcs : IsText cs) :
    ∃ t : Token, readLine ((4 : Nat) : Int) { column := 4 * d + 1, inText := true }
        { fileName, number, line := textRow d cs } =
        ({ column := 4 * d + 1, inText := true }, [t]) ∧
      t.kind = .text ∧ t.text.toList = cs := by
  rcases hcs with rfl | ⟨c, rest, hcontent, hcomment, htab, hkind⟩
  · exact ⟨_, readLine_of_good (.blank rfl), rfl, rfl⟩
  · have hne : cs ≠ [] := by
      rintro rfl
      cases hcontent
    have hline : lineContent (textRow d cs) = c :: rest := by
      rw [textRow_eq hne, lineContent_spaces, hcontent]
    have hcolumn : startColumn (textRow d cs) = 4 * d + startColumn cs := by
      rw [textRow_eq hne, startColumn_spaces]
    refine ⟨textToken { fileName, number, line := textRow d cs } (4 * d + 1), ?_, rfl,
      textToken_textRow hne⟩
    by_cases hspaces : 1 < startColumn cs
    · -- Extra spaces are kept, because the row before is text.
      exact readLine_of_good (.kept hline hcomment htab hkind rfl (by dsimp only; omega))
    · have hstart : startColumn (textRow d cs) = 4 * d + 1 := by
        have hpos : 1 ≤ startColumn cs := Nat.succ_pos _
        omega
      have hshift := shift_right (u := 4) (by decide) (4 * d + 1) 0
        { fileName, number, line := textRow d cs }
      have hgood : GoodReading ((4 : Nat) : Int) { column := 4 * d + 1, inText := true }
          { fileName, number, line := textRow d cs } _ :=
        .text hline hcomment htab hkind (fun _ => Nat.le_of_eq hstart)
          (by rw [hstart]; exact hshift)
      have hread := readLine_of_good hgood
      rwa [hstart] at hread

/-- The first row of text below a keyword raises the level and gives its text. -/
theorem readLine_textRow_first {fileName : String} {number d : Nat} {cs : List Char}
    (hcs : IsText cs) (hclean : StartsClean cs) :
    ∃ indent t : Token, readLine ((4 : Nat) : Int) { column := 4 * d + 1, inText := false }
        { fileName, number, line := textRow (d + 1) cs } =
        ({ column := 4 * (d + 1) + 1, inText := true }, [indent, t]) ∧
      indent.kind = .indent ∧ t.kind = .text ∧ t.text.toList = cs := by
  obtain ⟨a, as, rfl, hspace⟩ := hclean
  have hcontent := lineContent_of_head hspace as
  obtain ⟨c, rest, hc, hcomment, htab, hkind⟩ := hcs.resolve_left (List.cons_ne_nil a as)
  rw [hcontent] at hc
  cases hc
  have hne : a :: as ≠ [] := List.cons_ne_nil a as
  have hline : lineContent (textRow (d + 1) (a :: as)) = a :: as := by
    rw [textRow_eq hne, lineContent_spaces, hcontent]
  have hstart : startColumn (textRow (d + 1) (a :: as)) = 4 * d + 1 + 1 * 4 := by
    rw [textRow_eq hne, startColumn_spaces, startColumn, List.takeWhile_cons_of_neg (by simpa),
      List.length_nil]
    omega
  have hshift := shift_right (u := 4) (by decide) (4 * d + 1) 1
    { fileName, number, line := textRow (d + 1) (a :: as) }
  have hgood : GoodReading ((4 : Nat) : Int) { column := 4 * d + 1, inText := false }
      { fileName, number, line := textRow (d + 1) (a :: as) } _ :=
    .text hline hcomment htab hkind (fun hin => by cases hin) (by rw [hstart]; exact hshift)
  have hread := readLine_of_good hgood
  rw [hstart] at hread
  exact ⟨_, _, hread, rfl, rfl, textToken_textRow hne⟩

/-- Rows of text behind a row of text give their texts, and the margin stays. -/
theorem readLines_textRows {texts : List Content}
    (htexts : ∀ c ∈ texts, c.kind = .text ∧ c.form = .line ∧ IsText c.value.toList)
    (fileName : String) (number d : Nat) :
    ∃ ts, readLines ((4 : Nat) : Int) fileName { column := 4 * d + 1, inText := true } number
        (texts.map fun c => textRow d c.value.toList) =
        ({ column := 4 * d + 1, inText := true }, ts) ∧
      (∀ t ∈ ts, t.kind = .text) ∧
      Tree.bareAll (ts.map leaf) = Tree.bareAll (texts.map (.node · [])) := by
  induction texts generalizing number with
  | nil => exact ⟨[], rfl, by simp, rfl⟩
  | cons c texts ih =>
    obtain ⟨hkind, hform, htext⟩ := htexts c (by simp)
    obtain ⟨t, hline, ht, hvalue⟩ := @readLine_textRow fileName number d _ htext
    obtain ⟨ts, hrest, hts, hbare⟩ := ih (fun u hu => htexts u (by simp [hu])) (number + 1)
    refine ⟨t :: ts, readLines_cons hline hrest, by simpa [ht] using hts, ?_⟩
    have hcontent : (Content.ofToken t).bare = c.bare :=
      Content.bare_ofToken (by rw [ht, hkind]) (by rw [hkind]; rfl) hform hvalue
    simp only [List.map_cons, Tree.bareAll, leaf, Tree.bare, hcontent]
    rw [hbare]

/-! ### Blocks -/

/-- Tokens that are blocks once a number of outdents follows them. -/
def OpenBlocks (kinds : List TokenKind) (ts : List Token) (e : Nat) (forest : List Tree) : Prop :=
  ∀ outs : List Token, outs.length = e → (∀ t ∈ outs, t.kind = .outdent) →
    Blocks kinds (ts ++ outs) forest

/-- Read from any margin that the first row moves by whole units, the rows of trees at some depth
give the marks for that depth and then the same trees, some levels of which are still open. -/
def Rereads (kinds : List TokenKind) (forest : List Tree) : Prop :=
  ∀ (fileName : String) (d number : Nat) (m : Margin) (Marks : List Token → Prop),
    (∀ p, ∃ marks, shift ((4 : Nat) : Int) m.column p (4 * d + 1) = .moved marks ∧ Marks marks) →
    ∃ marks ts e last again, Marks marks ∧
      readLines ((4 : Nat) : Int) fileName m number (rowsAll d forest) = (last, marks ++ ts) ∧
      last.column = 4 * (d + e) + 1 ∧ OpenBlocks kinds ts e again ∧
      Tree.bareAll again = Tree.bareAll forest

private theorem openBlocks_nil (kinds : List TokenKind) : OpenBlocks kinds [] 0 [] := by
  intro outs hlen _
  rw [List.length_eq_zero_iff.mp hlen]
  exact .nil

/-- The rows of a body, read below its keyword, give an indent, the texts and the nested blocks. -/
theorem readLines_body {kinds : List TokenKind} {texts : List Content} {nested : List Tree}
    (htexts : ∀ c ∈ texts, c.kind = .text ∧ c.form = .line ∧ IsText c.value.toList)
    (hfirst : ∀ c ∈ texts.head?, StartsClean c.value.toList) (hbody : texts = [] → nested ≠ [])
    (hnested : nested ≠ [] → Rereads kinds nested) (fileName : String) (number d : Nat) :
    ∃ indent ts inner e last again,
      readLines ((4 : Nat) : Int) fileName { column := 4 * d + 1, inText := false } number
          ((texts.map fun c => textRow (d + 1) c.value.toList) ++ rowsAll (d + 1) nested) =
        (last, indent :: (ts ++ inner)) ∧
      indent.kind = .indent ∧ (∀ t ∈ ts, t.kind = .text) ∧
      Tree.bareAll (ts.map leaf) = Tree.bareAll (texts.map (.node · [])) ∧
      last.column = 4 * (d + 1 + e) + 1 ∧ OpenBlocks kinds inner e again ∧
      Tree.bareAll again = Tree.bareAll nested := by
  cases texts with
  | nil =>
    -- The first nested block stands one level deeper than the keyword.
    have hshift (p : Place) : ∃ marks,
        shift ((4 : Nat) : Int) (4 * d + 1) p (4 * (d + 1) + 1) = .moved marks ∧
          ∃ t : Token, marks = [t] ∧ t.kind = .indent :=
      ⟨_, shift_right (u := 4) (by decide) (4 * d + 1) 1 p, _, rfl, rfl⟩
    obtain ⟨marks, inner, e, last, again, ⟨t, rfl, ht⟩, hread, hcolumn, hopen, hbare⟩ :=
      hnested (hbody rfl) fileName (d + 1) number { column := 4 * d + 1, inText := false } _ hshift
    exact ⟨t, [], inner, e, last, again, hread, ht, by simp, rfl, hcolumn, hopen, hbare⟩
  | cons c texts =>
    obtain ⟨hkind, hform, htext⟩ := htexts c (by simp)
    obtain ⟨indent, t, hline, hindent, ht, hvalue⟩ :=
      @readLine_textRow_first fileName number d _ htext (hfirst c (by simp))
    have hothers : ∀ u ∈ texts, u.kind = .text ∧ u.form = .line ∧ IsText u.value.toList :=
      fun u hu => htexts u (List.mem_cons_of_mem c hu)
    obtain ⟨ts, hrows, hts, hbare⟩ :=
      readLines_textRows hothers fileName (number + 1) (d + 1)
    have hhead := readLines_cons hline hrows
    have hcontent : (Content.ofToken t).bare = c.bare :=
      Content.bare_ofToken (by rw [ht, hkind]) (by rw [hkind]; rfl) hform hvalue
    have hleaves : Tree.bareAll ((t :: ts).map leaf) =
        Tree.bareAll ((c :: texts).map (.node · [])) := by
      simp only [List.map_cons, Tree.bareAll, leaf, Tree.bare, hcontent]
      rw [hbare]
    by_cases hnil : nested = []
    · subst hnil
      refine ⟨indent, t :: ts, [], 0, { column := 4 * (d + 1) + 1, inText := true }, [], ?_,
        hindent, by simpa [ht] using hts, hleaves, rfl, openBlocks_nil kinds, rfl⟩
      rw [rowsAll, List.append_nil, List.append_nil]
      exact hhead
    · have hshift (p : Place) : ∃ marks,
          shift ((4 : Nat) : Int) (4 * (d + 1) + 1) p (4 * (d + 1) + 1) = .moved marks ∧
            marks = [] :=
        ⟨_, shift_right (u := 4) (by decide) (4 * (d + 1) + 1) 0 p, rfl⟩
      obtain ⟨marks, inner, e, last, again, rfl, hread, hcolumn, hopen, hagain⟩ :=
        hnested hnil fileName (d + 1) _ { column := 4 * (d + 1) + 1, inText := true } _ hshift
      exact ⟨indent, t :: ts, inner, e, last, again, readLines_append hhead hread, hindent,
        by simpa [ht] using hts, hleaves, hcolumn, hopen, hagain⟩

/-- Tokens that are a block once a number of outdents follows them, whatever blocks come next. -/
def OpenBlock (kinds : List TokenKind) (ts : List Token) (e : Nat) (tree : Tree) : Prop :=
  ∀ (outs rest : List Token) (others : List Tree), outs.length = e →
    (∀ t ∈ outs, t.kind = .outdent) → Blocks kinds rest others →
    Blocks kinds (ts ++ (outs ++ rest)) (tree :: others)

/-- A block whose body is open is closed by one outdent more than its body needs. -/
theorem openBlock_of_body {kinds : List TokenKind} {keyword indent : Token} {name? : Option Token}
    {texts inner : List Token} {e : Nat} {nested : List Tree}
    (hkeyword : keyword.kind ∈ kinds) (hname : ∀ t ∈ name?, t.kind = .keywordText)
    (hindent : indent.kind = .indent) (htexts : ∀ t ∈ texts, t.kind = .text)
    (hopen : OpenBlocks (nestedKinds keyword.kind) inner e nested) :
    OpenBlock kinds (keyword :: (name?.toList ++ indent :: (texts ++ inner))) (e + 1)
      (blockTree keyword name? texts nested) := by
  intro outs rest others hlen houts hrest
  obtain ⟨before, outdent, rfl⟩ : ∃ before outdent, outs = before ++ [outdent] := by
    rcases List.eq_nil_or_concat outs with rfl | ⟨before, outdent, h⟩
    · cases hlen
    · exact ⟨before, outdent, h.trans (List.concat_eq_append ..)⟩
  have hinner := hopen before (by simpa using hlen) fun t ht => houts t (by simp [ht])
  have hcons := Blocks.cons hkeyword hname hindent htexts hinner (houts outdent (by simp)) hrest
  simpa [blockTokens] using hcons

private theorem bareAll_name {token? : Option Token} {name? : Option Content}
    (htoken : ∀ t ∈ token?, t.kind = .keywordText)
    (hname : ∀ c ∈ name?, c.kind = .keywordText ∧ c.form = .line)
    (htext : token?.map (·.text.toList) = name?.map (·.value.toList)) :
    Tree.bareAll (token?.toList.map leaf) = Tree.bareAll (name?.toList.map (.node · [])) := by
  cases token? with
  | none =>
    cases name? with
    | none => rfl
    | some c => cases htext
  | some t =>
    cases name? with
    | none => cases htext
    | some c =>
      obtain ⟨hkind, hform⟩ := hname c rfl
      have hcontent : (Content.ofToken t).bare = c.bare :=
        Content.bare_ofToken (by rw [htoken t rfl, hkind]) (by rw [hkind]; rfl) hform
          (Option.some.inj htext)
      simp only [Option.toList_some, List.map_cons, List.map_nil, Tree.bareAll, leaf, Tree.bare,
        hcontent]

/-- The rows of one printable block are read back to the same block, which is still open. -/
theorem readLines_block {kinds : List TokenKind} {keyword : Content} {name? : Option Content}
    {texts : List Content} {nested : List Tree} (hkeyword : keyword.kind ∈ kinds)
    (hblock : keyword.kind.isBlock = true) (hvalue : keyword.value = "")
    (hform : keyword.form = .line)
    (hname : ∀ c ∈ name?, c.kind = .keywordText ∧ c.form = .line ∧ IsNameText c.value.toList ∧
      OnOneLine c.value.toList)
    (htexts : ∀ c ∈ texts, c.kind = .text ∧ c.form = .line ∧ IsText c.value.toList ∧
      OnOneLine c.value.toList)
    (hfirst : ∀ c ∈ texts.head?, StartsClean c.value.toList) (hbody : texts = [] → nested ≠ [])
    (hnested : Printable (nestedKinds keyword.kind) nested)
    (hagain : nested ≠ [] → Rereads (nestedKinds keyword.kind) nested)
    (fileName : String) (d number : Nat) (m : Margin) {Marks : List Token → Prop}
    (hshift : ∀ p, ∃ marks,
      shift ((4 : Nat) : Int) m.column p (4 * d + 1) = .moved marks ∧ Marks marks) :
    ∃ marks ts e last tree, Marks marks ∧
      readLines ((4 : Nat) : Int) fileName m number (rows d (.node keyword
        (name?.toList.map (.node · []) ++ (texts.map (.node · []) ++ nested)))) =
        (last, marks ++ ts) ∧
      last.column = 4 * (d + e) + 1 ∧ OpenBlock kinds ts e tree ∧
      tree.bare = (Tree.node keyword
        (name?.toList.map (.node · []) ++ (texts.map (.node · []) ++ nested))).bare := by
  rw [rows_block hblock (fun c hc => (hname c hc).1)
    (fun c hc => ⟨(htexts c hc).1, (htexts c hc).2.2.2.1⟩)
    fun t ht => isBlock_of_nestedKinds _ _ (hnested.kinds_of_mem t ht)]
  obtain ⟨marks, hmoved, hmarks⟩ :=
    hshift { fileName, number, line := headRow d keyword.kind (name?.map (·.value)) }
  have hnames : ∀ s ∈ name?.map (·.value), IsNameText s.toList := by
    intro s hs
    obtain ⟨c, hc, rfl⟩ := Option.map_eq_some_iff.mp hs
    exact (hname c hc).2.2.1
  obtain ⟨kw, token?, hhead, hkw, htoken, htokens⟩ := readLine_headRow hblock hnames hmoved
  obtain ⟨indent, ts, inner, e, last, again, hrows, hindent, hts, hleaves, hcolumn, hopen, hbare⟩ :=
    readLines_body (fun c hc => ⟨(htexts c hc).1, (htexts c hc).2.1, (htexts c hc).2.2.1⟩)
      hfirst hbody hagain fileName (number + 1) d
  refine ⟨marks, kw :: (token?.toList ++ indent :: (ts ++ inner)), e + 1, last,
    blockTree kw token? ts again, hmarks, ?_, ?_, ?_, ?_⟩
  · simpa using readLines_cons hhead hrows
  · rw [hcolumn]
    omega
  · rw [← hkw] at hkeyword hopen
    exact openBlock_of_body hkeyword htoken hindent hts hopen
  · have hcontent : (Content.ofToken kw).bare = keyword.bare := by
      cases keyword
      simp_all [Content.bare, Content.ofToken]
    have hleaf := bareAll_name htoken (fun c hc => ⟨(hname c hc).1, (hname c hc).2.1⟩)
      (htokens.trans (Option.map_map ..))
    rw [blockTree, Tree.bare, Tree.bare, hcontent]
    simp only [Tree.bareAll_append, hleaf, hleaves, hbare]

/-- The rows of printable trees are read back to the same trees. -/
theorem rereads_of_printable {kinds : List TokenKind} {forest : List Tree}
    (h : Printable kinds forest) (hk : ∀ k ∈ kinds, k.isBlock = true) (hne : forest ≠ []) :
    Rereads kinds forest := by
  induction h with
  | nil => exact absurd rfl hne
  | @cons kinds keyword name? texts nested others hkeyword hvalue hform hname htexts hfirst hbody
      hnested hothers ihnested ihothers =>
    intro fileName d number m Marks hshift
    have hnestedKinds := isBlock_of_nestedKinds keyword.kind
    obtain ⟨marks, ts, e, last, tree, hmarks, hread, hcolumn, hopen, hbare⟩ :=
      readLines_block hkeyword (hk _ hkeyword) hvalue hform hname htexts hfirst hbody hnested
        (ihnested hnestedKinds) fileName d number m hshift
    rw [rowsAll]
    by_cases hnil : others = []
    · subst hnil
      refine ⟨marks, ts, e, last, [tree], hmarks, ?_, hcolumn, ?_, ?_⟩
      · rw [rowsAll, List.append_nil]
        exact hread
      · intro outs hlen houts
        have hblocks := hopen outs [] [] hlen houts .nil
        rwa [List.append_nil] at hblocks
      · simp only [Tree.bareAll, hbare]
    · -- The next block closes this one: its first row gives the outdents that are missing.
      have hback (p : Place) : ∃ closing,
          shift ((4 : Nat) : Int) last.column p (4 * d + 1) = .moved closing ∧
            (closing.length = e ∧ ∀ t ∈ closing, t.kind = .outdent) := by
        refine ⟨List.replicate e (outdentMark p (4 * d + 1)), ?_, List.length_replicate, ?_⟩
        · have hmargin : last.column = 4 * d + 1 + e * 4 := by omega
          rw [hmargin]
          exact shift_left (u := 4) (by decide) (4 * d + 1) e p
        · intro t ht
          rw [List.eq_of_mem_replicate ht]
          rfl
      obtain ⟨closing, us, e', last', again, ⟨hlen, hclosing⟩, hread', hcolumn', hopen', hbare'⟩ :=
        ihothers hk hnil fileName d _ last _ hback
      refine ⟨marks, ts ++ (closing ++ us), e', last', tree :: again, hmarks, ?_, hcolumn', ?_, ?_⟩
      · have hall := readLines_append hread hread'
        rwa [List.append_assoc] at hall
      · intro outs hout houts
        have hblocks := hopen closing (us ++ outs) again hlen hclosing (hopen' outs hout houts)
        simpa using hblocks
      · rw [Tree.bareAll, Tree.bareAll, hbare, hbare']

/-! ### Whole prompts -/

/-- A row that is read on one line and without another file. -/
def IsPlainRow (row : List Char) : Prop :=
  OnOneLine row ∧ ∀ kind ∈ lineKeyword? row, kind.isDirective = false

private theorem onOneLine_margin {d : Nat} {cs : List Char} (h : OnOneLine cs) :
    OnOneLine (Prompt.margin d ++ cs) := by
  constructor <;> simp [Prompt.margin, h.1, h.2]

private theorem isPlainRow_headRow {d : Nat} {kind : TokenKind} {name? : Option String}
    (hkind : kind.isBlock = true)
    (hname : ∀ s ∈ name?, IsNameText s.toList ∧ OnOneLine s.toList) :
    IsPlainRow (headRow d kind name?) := by
  constructor
  · have hword : OnOneLine (kind.name.toList ++ [':']) := by
      cases kind with
      | role | context | action => exact ⟨by decide, by decide⟩
      | _ => cases hkind
    have htail : OnOneLine ((name?.map fun name => ' ' :: name.toList).getD []) := by
      cases name? with
      | none => exact ⟨by simp, by simp⟩
      | some name =>
        obtain ⟨-, hone⟩ := hname name rfl
        constructor <;> simp [hone.1, hone.2]
    rw [headRow, List.append_assoc, List.append_assoc]
    refine onOneLine_margin ?_
    rw [← List.append_assoc]
    constructor <;> simp only [List.mem_append, not_or]
    · exact ⟨by simpa using hword.1, htail.1⟩
    · exact ⟨by simpa using hword.2, htail.2⟩
  · obtain ⟨-, c, rest, hcontent, hcomment, -, hfirst⟩ :=
      content_headRow hkind (fun s hs => (hname s hs).1) d
    rw [lineKeyword?_of_content hcontent hcomment, hfirst, (word_of_isBlock hkind).2.1]
    rintro k ⟨⟩
    cases kind with
    | role | context | action => rfl
    | _ => cases hkind

private theorem isPlainRow_textRow {d : Nat} {cs : List Char} (hcs : IsText cs)
    (hone : OnOneLine cs) :
    IsPlainRow (textRow d cs) := by
  rcases hcs with rfl | ⟨c, rest, hcontent, hcomment, htab, hkind⟩
  · have hnone : lineKeyword? (textRow d []) = none := by
      rw [textRow, if_pos rfl]
      decide +kernel
    exact ⟨hone, by simp [hnone]⟩
  · have hne : cs ≠ [] := by
      rintro rfl
      cases hcontent
    rw [textRow, if_neg hne]
    refine ⟨onOneLine_margin hone, ?_⟩
    have hline : lineContent (Prompt.margin d ++ cs) = c :: rest := by
      rw [Prompt.margin, lineContent_spaces, hcontent]
    rw [lineKeyword?_of_content hline hcomment, hkind]
    simp

/-- The rows of trees that can be printed are plain. -/
theorem isPlainRow_of_printable {kinds : List TokenKind} {forest : List Tree}
    (h : Printable kinds forest) (hk : ∀ k ∈ kinds, k.isBlock = true) (d : Nat) :
    ∀ row ∈ rowsAll d forest, IsPlainRow row := by
  induction h generalizing d with
  | nil => simp [rowsAll]
  | @cons kinds keyword name? texts nested others hkeyword hvalue hform hname htexts hfirst hbody
      hnested hothers ihnested ihothers =>
    intro row hrow
    rw [rowsAll, rows_block (hk _ hkeyword) (fun c hc => (hname c hc).1)
      (fun c hc => ⟨(htexts c hc).1, (htexts c hc).2.2.2.1⟩)
      fun t ht => isBlock_of_nestedKinds _ _ (hnested.kinds_of_mem t ht)] at hrow
    simp only [List.cons_append, List.append_assoc, List.mem_cons, List.mem_append,
      List.mem_map] at hrow
    rcases hrow with rfl | ⟨c, hc, rfl⟩ | hrow | hrow
    · refine isPlainRow_headRow (hk _ hkeyword) fun s hs => ?_
      obtain ⟨c, hc, rfl⟩ := Option.map_eq_some_iff.mp hs
      exact (hname c hc).2.2
    · exact isPlainRow_textRow (htexts c hc).2.2.1 (htexts c hc).2.2.2
    · exact ihnested (isBlock_of_nestedKinds _) (d + 1) row hrow
    · exact ihothers hk d row hrow

private theorem plainWidth_four : PlainWidth 4 := ⟨by decide, by decide⟩

/-- The tokens of the rows, read from the first line on. -/
theorem readLines_rowsAll {trees : List Tree} (hprint : Printable topKinds trees)
    (fileName : String) :
    ∃ ts e last again,
      readLines ((4 : Nat) : Int) fileName {} 1 (rowsAll 0 trees) = (last, ts) ∧
      last.column = e * 4 + 1 ∧ OpenBlocks topKinds ts e again ∧
      Tree.bareAll again = Tree.bareAll trees := by
  by_cases hne : trees = []
  · subst hne
    exact ⟨[], 0, {}, [], rfl, rfl, openBlocks_nil topKinds, rfl⟩
  · have hshift (p : Place) : ∃ marks,
        shift ((4 : Nat) : Int) ({} : Margin).column p (4 * 0 + 1) = .moved marks ∧ marks = [] :=
      ⟨_, shift_right (u := 4) (by decide) 1 0 p, rfl⟩
    obtain ⟨marks, ts, e, last, again, rfl, hread, hcolumn, hopen, hbare⟩ :=
      rereads_of_printable hprint isBlock_of_topKinds hne fileName 0 1 {} _
        hshift
    exact ⟨ts, e, last, again, hread, by omega, hopen, hbare⟩

/-- A prompt of printable sections is an outline, and it derives the same trees. -/
theorem isDocument_prompt {trees : List Tree} (hprint : Printable topKinds trees)
    (hdistinct : (trees.map (·.content.kind)).Nodup) (fileName : String) :
    Undirected (String.ofList (linesAll 0 trees)) ∧
      ∃ again, IsDocument (content 4 fileName (String.ofList (linesAll 0 trees))) again ∧
        Tree.bareAll again = Tree.bareAll trees := by
  have hplain := isPlainRow_of_printable hprint isBlock_of_topKinds 0
  have hlines : Text.lines (String.ofList (linesAll 0 trees)).toList = rowsAll 0 trees := by
    rw [String.toList_ofList, linesAll_eq_rows]
    refine Text.lines_rows (fun row hrow => (hplain row hrow).1.1) fun row hrow hlast => ?_
    exact (hplain row hrow).1.2 (List.mem_of_getLast? hlast)
  refine ⟨?_, ?_⟩
  · intro line hline
    rw [hlines] at hline
    exact (hplain line hline).2
  · obtain ⟨ts, e, last, again, hread, hcolumn, hopen, hbare⟩ := readLines_rowsAll hprint fileName
    have hcontent : content 4 fileName (String.ofList (linesAll 0 trees)) =
        ts ++ closingMarks 4 fileName ((rowsAll 0 trees).length + 1) (e * 4 + 1) := by
      rw [content, hlines, signedUnit_eq plainWidth_four, atLeastOne_eq plainWidth_four,
        show (4 : UInt64).toNat = 4 from rfl, hread, hcolumn]
    refine ⟨again, ⟨?_, ?_⟩, hbare⟩
    · rw [hcontent]
      exact hopen _ (length_closingMarks (by decide) fileName _ e) fun t ht =>
        kind_of_mem_closingMarks ht
    · rw [Tree.kinds_of_bareAll hbare]
      exact hdistinct

end Outline

namespace Compile

open Grammar Outline

/-- The sections of an outline are printable. -/
theorem printable_of_parseText {w : Workspace} {width : UInt64} {searchPaths : List String}
    {fileName source : String} {d : Document} (hwidth : PlainWidth width)
    (hreturn : '\r' ∉ source.toList) (hplain : Undirected source)
    (h : parseText w width searchPaths fileName source = .ok d) :
    Printable topKinds d.trees ∧ ∀ s, ∀ t ∈ d.sectionTree? s, t.content.kind = s.kind := by
  obtain ⟨forest, hdoc, rfl⟩ := (parseText_eq_ok_iff hwidth hplain w searchPaths fileName d).mp h
  have hprint := hdoc.blocks.printable isBlock_of_topKinds (written_content hdoc.good)
    fun t ht hcarries => onOneLine_of_content hreturn ht hcarries
  have hsection (s : Section) (t : Tree) (ht : t ∈ (Document.ofForest forest).sectionTree? s) :
      t ∈ forest ∧ t.content.kind = s.kind := by
    rw [Document.sectionTree?_ofForest] at ht
    exact ⟨List.mem_of_find?_eq_some ht, by simpa using List.find?_some ht⟩
  refine ⟨Printable.of_forall fun t ht => ?_, fun s t ht => (hsection s t ht).2⟩
  rw [Document.trees_eq_sections] at ht
  obtain ⟨s, -, hs⟩ := List.mem_filterMap.mp ht
  exact hprint.of_mem (hsection s t hs).1

/-- A prompt is an outline with four spaces for each level, and reading it gives the same sections
with the same trees, places aside. This holds for every outline without carriage returns and
directives. -/
theorem parseText_render {w w' : Workspace} {width : UInt64}
    {searchPaths searchPaths' : List String} {fileName fileName' source : String} {d : Document}
    (hwidth : PlainWidth width)
    (hreturn : '\r' ∉ source.toList) (hplain : Undirected source)
    (h : parseText w width searchPaths fileName source = .ok d) :
    ∃ again, parseText w' 4 searchPaths' fileName' (Prompt.render false d) = .ok again ∧
      ∀ s, (again.sectionTree? s).map Tree.bare = (d.sectionTree? s).map Tree.bare := by
  obtain ⟨hprint, hkinds⟩ := printable_of_parseText hwidth hreturn hplain h
  rw [Document.trees_eq_sections] at hprint
  obtain ⟨hundirected, again, hdoc, hbare⟩ :=
    isDocument_prompt hprint (Document.nodup_sections hkinds) fileName'
  rw [← Document.trees_eq_sections] at hundirected hdoc
  refine ⟨.ofForest again, ?_, ?_⟩
  · exact (parseText_eq_ok_iff ⟨by decide, by decide⟩ hundirected w' searchPaths' fileName' _).mpr
      ⟨again, hdoc, rfl⟩
  · intro s
    rw [Document.sectionTree?_ofForest, Tree.find?_of_bareAll hbare,
      Document.find?_sections hkinds]

/-- Two sections in the other order than they are written, with extra spaces and an empty line. -/
def shiftedSample : String := "Context: Plan\n  a\n    b\n\nRole:\n  r\n"

private theorem parseText_shiftedSample :
    ∃ d, parseText {} 2 [] "plan" shiftedSample = .ok d ∧
      Prompt.render false d = "Role:\n    r\nContext: Plan\n    a\n      b\n\n" := by
  have hplain : Undirected shiftedSample := by decide +kernel
  have hbuild : (Builder.build ((content 2 "plan" shiftedSample).map .token)
      (.finished (Token.endOfFile "plan"
        ((Text.lines shiftedSample.toList).length + 1)))).toOption.map (Prompt.render false) =
      some "Role:\n    r\nContext: Plan\n    a\n      b\n\n" := by
    decide +kernel
  rw [← parseText_eq_build hplain {} 2 [] "plan"] at hbuild
  cases h : parseText {} 2 [] "plan" shiftedSample with
  | error problems =>
    rw [h] at hbuild
    cases hbuild
  | ok d =>
    rw [h] at hbuild
    exact ⟨d, rfl, Option.some.inj hbuild⟩

/-- The sample is read, written with its sections in order, and read again. -/
theorem parseText_render_shiftedSample :
    '\r' ∉ shiftedSample.toList ∧ Undirected shiftedSample ∧
      ∃ d, parseText {} 2 [] "plan" shiftedSample = .ok d ∧
        Prompt.render false d = "Role:\n    r\nContext: Plan\n    a\n      b\n\n" ∧
        ∃ again, parseText {} 4 [] "prompt" (Prompt.render false d) = .ok again ∧
          ∀ s, (again.sectionTree? s).map Tree.bare = (d.sectionTree? s).map Tree.bare := by
  have hreturn : '\r' ∉ shiftedSample.toList := by decide +kernel
  have hplain : Undirected shiftedSample := by decide +kernel
  obtain ⟨d, hd, hrender⟩ := parseText_shiftedSample
  exact ⟨hreturn, hplain, d, hd, hrender,
    parseText_render ⟨by decide, by decide⟩ hreturn hplain hd⟩

end Compile

end PromptOutline
