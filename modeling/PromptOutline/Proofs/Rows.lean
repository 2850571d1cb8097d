import PromptOutline.Proofs.Layout
import PromptOutline.Render.Prompt

/-!
# The rows of a prompt

A prompt is a list of rows, each ended by a line feed. Cut at line feeds it gives its rows again,
and read as lines it does so, too, if no row ends in a carriage return.
-/

namespace PromptOutline.Text

/-- A separator in front ends an empty piece. -/
theorem pieces_cons_self (sep : Char) (cs : List Char) :
    pieces sep (sep :: cs) = [] :: pieces sep cs := by
  simp [pieces]

/-- A character in front that is no separator belongs to the first piece. -/
theorem pieces_cons_of_ne {sep c : Char} (h : c ≠ sep) {cs piece : List Char}
    {others : List (List Char)} (hcs : pieces sep cs = piece :: others) :
    pieces sep (c :: cs) = (c :: piece) :: others := by
  rw [pieces] at hcs
  simp only [pieces, List.foldr_cons, if_neg h, hcs]

/-- The pieces of two texts with the separator between them. -/
theorem pieces_append (sep : Char) (cs ds : List Char) :
    pieces sep (cs ++ sep :: ds) = pieces sep cs ++ pieces sep ds := by
  induction cs with
  | nil => exact pieces_cons_self sep ds
  | cons c cs ih =>
    by_cases hc : c = sep
    · subst hc
      rw [List.cons_append, pieces_cons_self, pieces_cons_self, ih, List.cons_append]
    · obtain ⟨piece, others, hcs⟩ := List.exists_cons_of_ne_nil (pieces_ne_nil sep cs)
      rw [hcs, List.cons_append] at ih
      rw [List.cons_append, pieces_cons_of_ne hc ih, pieces_cons_of_ne hc hcs, List.cons_append]

/-- A text without the separator is its only piece. -/
theorem pieces_of_notMem {sep : Char} {cs : List Char} (h : sep ∉ cs) : pieces sep cs = [cs] := by
  induction cs with
  | nil => rfl
  | cons c cs ih =>
    have hc : c ≠ sep := fun he => h (by simp [he])
    exact pieces_cons_of_ne hc (ih fun hm => h (by simp [hm]))

/-- Rows that are ended by the separator are the pieces, up to the empty one at the end. -/
theorem pieces_rows {sep : Char} {rows : List (List Char)} (h : ∀ row ∈ rows, sep ∉ row) :
    pieces sep (rows.flatMap (· ++ [sep])) = rows ++ [[]] := by
  induction rows with
  | nil => rfl
  | cons row rows ih =>
    rw [List.flatMap_cons, List.append_assoc, List.singleton_append,
      pieces_append, pieces_of_notMem (h row (by simp)), ih fun r hr => h r (by simp [hr])]
    rfl

/-- What stands in a piece stands in the text and is not the separator. -/
theorem mem_of_mem_pieces {sep c : Char} {cs piece : List Char} (hp : piece ∈ pieces sep cs)
    (hc : c ∈ piece) : c ∈ cs ∧ c ≠ sep := by
  induction cs generalizing piece with
  | nil =>
    rw [pieces, List.foldr_nil, List.mem_singleton] at hp
    rw [hp] at hc
    cases hc
  | cons a cs ih =>
    by_cases ha : a = sep
    · subst ha
      rw [pieces_cons_self] at hp
      rcases List.mem_cons.mp hp with rfl | hp
      · cases hc
      · exact ⟨List.mem_cons_of_mem a (ih hp hc).1, (ih hp hc).2⟩
    · obtain ⟨first, others, hcs⟩ := List.exists_cons_of_ne_nil (pieces_ne_nil sep cs)
      rw [pieces_cons_of_ne ha hcs] at hp
      rcases List.mem_cons.mp hp with rfl | hp
      · rcases List.mem_cons.mp hc with rfl | hc
        · exact ⟨List.mem_cons_self, ha⟩
        · have hin := ih (by rw [hcs]; exact List.mem_cons_self) hc
          exact ⟨List.mem_cons_of_mem a hin.1, hin.2⟩
      · have hin := ih (by rw [hcs]; exact List.mem_cons_of_mem first hp) hc
        exact ⟨List.mem_cons_of_mem a hin.1, hin.2⟩

private theorem mem_of_mem_linesOfPieces {c : Char} {line : List Char} {ps : List (List Char)}
    (hl : line ∈ linesOfPieces ps) (hc : c ∈ line) : ∃ piece ∈ ps, c ∈ piece := by
  have hdrop {piece : List Char} (hm : c ∈ dropReturn piece) : c ∈ piece := by
    unfold dropReturn at hm
    split at hm
    · exact List.dropLast_subset piece hm
    · exact hm
  fun_induction linesOfPieces ps with
  | case1 => cases hl
  | case2 => cases hl
  | case3 last =>
    rw [List.mem_singleton.mp hl] at hc
    exact ⟨last, List.mem_cons_self, hc⟩
  | case4 piece next others ih =>
    rcases List.mem_cons.mp hl with rfl | hl
    · exact ⟨piece, List.mem_cons_self, hdrop hc⟩
    · obtain ⟨q, hq, hin⟩ := ih hl
      exact ⟨q, List.mem_cons_of_mem piece hq, hin⟩

/-- What stands in a line stands in the text and is no line feed. -/
theorem mem_of_mem_lines {c : Char} {cs line : List Char} (hl : line ∈ lines cs) (hc : c ∈ line) :
    c ∈ cs ∧ c ≠ '\n' := by
  obtain ⟨piece, hp, hin⟩ := mem_of_mem_linesOfPieces hl hc
  exact mem_of_mem_pieces hp hin

/-- Rows that are ended by line feeds are the lines, if no row ends in a carriage return. -/
theorem lines_rows {rows : List (List Char)} (h : ∀ row ∈ rows, '\n' ∉ row)
    (hreturn : ∀ row ∈ rows, row.getLast? ≠ some '\r') :
    lines (rows.flatMap (· ++ ['\n'])) = rows := by
  rw [lines, pieces_rows h]
  clear h
  induction rows with
  | nil => rfl
  | cons row rows ih =>
    have hrest := ih fun r hr => hreturn r (by simp [hr])
    have hrow : dropReturn row = row := by rw [dropReturn, if_neg (hreturn row (by simp))]
    obtain ⟨next, others, hnext⟩ := List.exists_cons_of_ne_nil
      (List.append_ne_nil_of_right_ne_nil rows (List.cons_ne_nil [] []))
    rw [List.cons_append, hnext, linesOfPieces, ← hnext, hrest, hrow]

end PromptOutline.Text

namespace PromptOutline.Prompt

/-- The row of a line of text at some depth. -/
def textRow (depth : Nat) (line : List Char) : List Char :=
  if line = [] then [] else margin depth ++ line

/-- The row that opens a block. -/
def headRow (depth : Nat) (kind : TokenKind) (name? : Option String) : List Char :=
  margin depth ++ kind.name.toList ++ [':'] ++ (name?.map fun name => ' ' :: name.toList).getD []

mutual

/-- The rows of a tree. -/
def rows (depth : Nat) : Tree → List (List Char)
  | .node c cs =>
    if c.kind = .text then (Text.pieces '\n' c.value.toList).map (textRow depth)
    else if c.kind.isBlock then
      headRow depth c.kind (Tree.node c cs).name? :: rowsAll (depth + 1) cs
    else []

/-- The rows of neighbouring trees. -/
def rowsAll (depth : Nat) : List Tree → List (List Char)
  | [] => []
  | t :: ts => rows depth t ++ rowsAll depth ts

end

/-- The rows of some trees are put one behind the other. -/
theorem rowsAll_eq_flatMap (depth : Nat) (ts : List Tree) :
    rowsAll depth ts = ts.flatMap (rows depth) := by
  induction ts with
  | nil => rfl
  | cons t ts ih => rw [rowsAll, ih, List.flatMap_cons]

/-- The rows of two lists of trees are put one behind the other. -/
theorem rowsAll_append (depth : Nat) (ts us : List Tree) :
    rowsAll depth (ts ++ us) = rowsAll depth ts ++ rowsAll depth us := by
  simp only [rowsAll_eq_flatMap, List.flatMap_append]

/-- The rows of a single tree are its own. -/
theorem rowsAll_singleton (depth : Nat) (t : Tree) : rowsAll depth [t] = rows depth t := by
  rw [rowsAll, rowsAll, List.append_nil]

/-- The rows of a text are its lines. -/
theorem rows_of_text {t : Tree} (h : t.content.kind = .text) (depth : Nat) :
    rows depth t = (Text.pieces '\n' t.content.value.toList).map (textRow depth) := by
  cases t with
  | node c cs => rw [rows, if_pos (show c.kind = .text from h)]; rfl

/-- The rows below a keyword: its name has none, and its texts have one each. -/
theorem rowsAll_body {name? : Option Content} {texts : List Content} (d : Nat)
    (nested : List Tree) (hname : ∀ c ∈ name?, c.kind = .keywordText)
    (htexts : ∀ c ∈ texts, c.kind = .text ∧ '\n' ∉ c.value.toList) :
    rowsAll d (name?.toList.map (.node · []) ++ (texts.map (.node · []) ++ nested)) =
      (texts.map fun c => textRow d c.value.toList) ++ rowsAll d nested := by
  have hhead : rowsAll d (name?.toList.map (.node · [])) = [] := by
    cases name? with
    | none => rfl
    | some c => simp [rowsAll, rows, hname c rfl, TokenKind.isBlock]
  have hbody :
      rowsAll d (texts.map (.node · [])) = texts.map fun c => textRow d c.value.toList := by
    induction texts with
    | nil => rfl
    | cons c texts ih =>
      obtain ⟨hkind, hone⟩ := htexts c (by simp)
      rw [List.map_cons, rowsAll, rows, if_pos hkind, Text.pieces_of_notMem hone,
        ih fun u hu => htexts u (by simp [hu])]
      rfl
  rw [rowsAll_append, rowsAll_append, hhead, hbody, List.nil_append]

/-- Without the text of a keyword line below it, a tree has no name. -/
theorem name?_of_forall {c : Content} {cs : List Tree}
    (h : ∀ t ∈ cs, t.content.kind ≠ .keywordText) : (Tree.node c cs).name? = none := by
  cases cs with
  | nil => rfl
  | cons t cs =>
    cases t with
    | node c below => exact if_neg (h _ List.mem_cons_self)

private theorem name?_block {keyword : Content} {name? : Option Content} {texts : List Content}
    {nested : List Tree} (hname : ∀ c ∈ name?, c.kind = .keywordText)
    (htexts : ∀ c ∈ texts, c.kind = .text)
    (hnested : ∀ t ∈ nested, t.content.kind ≠ .keywordText) :
    (Tree.node keyword
      (name?.toList.map (.node · []) ++ (texts.map (.node · []) ++ nested))).name? =
      name?.map (·.value) := by
  cases name? with
  | some c => exact if_pos (hname c rfl)
  | none =>
    apply name?_of_forall
    intro t ht
    simp only [Option.toList_none, List.map_nil, List.nil_append, List.mem_append] at ht
    rcases ht with ht | ht
    · obtain ⟨c, hc, rfl⟩ := List.mem_map.mp ht
      simp [Tree.content, htexts c hc]
    · exact hnested t ht

/-- The rows of a block. -/
theorem rows_block {keyword : Content} {name? : Option Content} {texts : List Content}
    {nested : List Tree} (hblock : keyword.kind.isBlock = true)
    (hname : ∀ c ∈ name?, c.kind = .keywordText)
    (htexts : ∀ c ∈ texts, c.kind = .text ∧ '\n' ∉ c.value.toList)
    (hnested : ∀ t ∈ nested, t.content.kind.isBlock = true) (d : Nat) :
    rows d (.node keyword
        (name?.toList.map (.node · []) ++ (texts.map (.node · []) ++ nested))) =
      headRow d keyword.kind (name?.map (·.value)) ::
        ((texts.map fun c => textRow (d + 1) c.value.toList) ++ rowsAll (d + 1) nested) := by
  have htext : keyword.kind ≠ .text := by
    intro he
    rw [he] at hblock
    cases hblock
  have hkinds : ∀ t ∈ nested, t.content.kind ≠ .keywordText := by
    intro t ht he
    have hkind := hnested t ht
    rw [he] at hkind
    cases hkind
  rw [rows, if_neg htext, if_pos hblock, name?_block hname (fun c hc => (htexts c hc).1) hkinds,
    rowsAll_body (d + 1) nested hname htexts]

/-- A prompt is its rows, each ended by a line feed. -/
theorem linesAll_eq_rows (depth : Nat) (ts : List Tree) :
    linesAll depth ts = (rowsAll depth ts).flatMap (· ++ ['\n']) := by
  induction ts using Tree.forest_induction generalizing depth with
  | nil => rfl
  | cons c below beside ihbelow ihbeside =>
    have hlines : lines depth (.node c below) =
        (rows depth (.node c below)).flatMap (· ++ ['\n']) := by
      rw [lines, rows]
      split
      · rw [List.flatMap_map]
        rfl
      · split
        · rw [List.flatMap_cons, ihbelow]
          rfl
        · rfl
    rw [linesAll, rowsAll, List.flatMap_append, hlines, ihbeside]

end PromptOutline.Prompt
