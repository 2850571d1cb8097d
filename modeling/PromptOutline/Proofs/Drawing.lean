import PromptOutline.Proofs.Rows
import PromptOutline.Proofs.Preorder
import PromptOutline.Render.TreeView

/-!
# Drawings read back

A drawing has one line for each visit of a node. Connectors are two characters each, so the depth of
a node, whether it is the last of its neighbours, and its icon stand at places of the line that the
label cannot reach. Depths and icons of all lines together say what shape the tree has.
-/

namespace PromptOutline

namespace TreeView

open Document

variable {d e : Document}

/-! ### Rows -/

/-- The icon of a node of a document. -/
def iconAt (d : Document) (id : NodeId) : Char :=
  icon (d.node id).kind.name (if (d.node id).isText then some (d.node id).form else none)

/-- What is shown of a node: the name of a block, the value of anything else. -/
def labelAt (d : Document) (id : NodeId) : String :=
  if (d.node id).kind.isBlock then (d.name? id).getD "" else (d.node id).value

/-- The line for the node at a spot. -/
def row (d : Document) (v : Spot) : List Char :=
  v.above.flatMap rail ++ connector v.isLast ++ [' ', iconAt d v.id, ' '] ++ label (labelAt d v.id)

/-- The line for the node at a spot, behind the number of the line where the node was read. -/
def numberedRow (d : Document) (v : Spot) : List Char := lineNumber (d.node v.id).line ++ row d v

/-- The lines of neighbouring trees are the rows of the spots in them. -/
theorem linesAll_of_preorder (hd : d.Acyclic) (numbered : Bool) {above : List Bool}
    {ids : List NodeId} {spots : List Spot} (h : d.Preorder above ids spots) :
    linesAll numbered (above.flatMap rail) (Snapshot.ofTrees (ids.map d.tree)) =
      spots.map (if numbered then numberedRow d else row d) := by
  induction h with
  | nothing => rfl
  | @node above id ids below beside _ _ ihbelow ihbeside =>
    have hname : (Tree.node (d.node id).toContent ((d.node id).children.map d.tree)).name? =
        d.name? id := by
      rw [← tree_eq hd, name?_tree hd]
    have hempty : (Snapshot.ofTrees (ids.map d.tree)).isEmpty = ids.isEmpty := by
      cases ids <;> rfl
    have hrails : above.flatMap rail ++ rail ids.isEmpty =
        (above ++ [ids.isEmpty]).flatMap rail := by
      rw [List.flatMap_append, List.flatMap_singleton]
    rw [List.map_cons, tree_eq hd id, Snapshot.ofTrees, Snapshot.ofTree, linesAll, lines, hname,
      hempty, hrails, ihbelow, ihbeside, List.map_cons, List.map_append, List.cons_append]
    congr 1
    cases numbered with
    | false => simp [row, iconAt, labelAt]
    | true => simp [numberedRow, row, iconAt, labelAt]

private theorem present_ofDocument (d : Document) :
    (Sections.ofDocument d).present = Snapshot.ofTrees (d.roots.map d.tree) := by
  have hmap (ids : List NodeId) :
      Snapshot.ofTrees (ids.map d.tree) = ids.map fun id => Snapshot.ofTree (d.tree id) := by
    induction ids with
    | nil => rfl
    | cons id ids ih => rw [List.map_cons, Snapshot.ofTrees, ih, List.map_cons]
  rw [hmap, roots, List.map_filterMap]
  change (Section.all.map fun s => (d.root? s).map fun id => Snapshot.ofTree (d.tree id)).filterMap
    id = _
  rw [List.filterMap_map]
  rfl

/-! ### Line feeds -/

private theorem newline_notMem_label (s : String) : '\n' ∉ label s := by
  have hline : '\n' ∉ s.toList.map fun c => if c = '\n' then '⏎' else c := by
    rw [List.mem_map]
    rintro ⟨c, -, hc⟩
    split at hc
    · cases hc
    · next hne => exact hne hc
  unfold label truncate
  split
  · rw [List.mem_append, not_or]
    exact ⟨fun hin => hline (List.mem_of_mem_take hin), by decide⟩
  · exact hline

private theorem newline_ne_icon (nodeType : String) (form : Option TextForm) :
    '\n' ≠ icon nodeType form := by
  unfold icon
  split
  · decide
  · decide
  · decide
  · decide
  · split <;> decide
  · decide

private theorem newline_notMem_row (d : Document) (v : Spot) : '\n' ∉ row d v := by
  have hrails : '\n' ∉ v.above.flatMap rail := by
    rw [List.mem_flatMap]
    rintro ⟨isLast, -, hin⟩
    cases isLast <;> revert hin <;> decide
  have hconnector : '\n' ∉ connector v.isLast := by
    cases v.isLast <;> decide
  have hicon : '\n' ≠ iconAt d v.id := newline_ne_icon _ _
  simp [row, hicon, hrails, hconnector, newline_notMem_label]

/-! ### Line numbers -/

/-- A line number is its decimal digits, of which there are two at least, and a space. -/
theorem lineNumber_eq (n : Nat) : ∃ digits, lineNumber n = digits ++ [' '] ∧ 2 ≤ digits.length ∧
    (∀ c ∈ digits, c.isDigit = true) ∧ Nat.ofDigitChars 10 digits 0 = n := by
  have hlist : (toString n).toList = Nat.toDigits 10 n := Nat.toList_repr
  refine ⟨List.replicate (2 - (Nat.toDigits 10 n).length) '0' ++ Nat.toDigits 10 n, ?_, ?_, ?_, ?_⟩
  · rw [lineNumber, hlist]
  · rw [List.length_append, List.length_replicate]
    omega
  · intro c hc
    rcases List.mem_append.mp hc with hc | hc
    · rw [List.eq_of_mem_replicate hc]
      rfl
    · exact Nat.isDigit_of_mem_toDigits (by decide) (by decide) hc
  · generalize 2 - (Nat.toDigits 10 n).length = padding
    induction padding with
    | zero => exact Nat.ofDigitChars_ten_toDigits
    | succ padding ih => exact ih

private theorem newline_notMem_lineNumber (n : Nat) : '\n' ∉ lineNumber n := by
  obtain ⟨digits, hdigits, -, hall, -⟩ := lineNumber_eq n
  rw [hdigits, List.mem_append, not_or]
  exact ⟨fun hin => absurd (hall _ hin) (by decide), by decide⟩

/-- A drawing is the header and one line for each spot. -/
theorem pieces_render (hd : d.Acyclic) (numbered : Bool) {spots : List Spot}
    (h : d.Preorder [] d.roots spots) : Text.pieces '\n' (render numbered d).toList =
      header :: spots.map (if numbered then numberedRow d else row d) ++ [[]] := by
  have hlines := linesAll_of_preorder hd numbered h
  rw [List.flatMap_nil, ← present_ofDocument] at hlines
  rw [render, String.toList_ofList, hlines, Text.pieces_rows]
  intro line hline
  rcases List.mem_cons.mp hline with rfl | hline
  · decide
  · obtain ⟨v, -, rfl⟩ := List.mem_map.mp hline
    cases numbered with
    | false => exact newline_notMem_row d v
    | true => simp [numberedRow, newline_notMem_lineNumber, newline_notMem_row]

/-! ### Lines read back -/

/-- What a line shows of the place of a node and of its kind. -/
structure Mark where
  depth : Nat
  isLast : Bool
  icon : Char
  deriving Repr, DecidableEq

/-- Read a line without a number: rails up to the connector, and the icon behind it. -/
def readMark? : List Char → Option Mark
  | a :: b :: rest =>
    if [a, b] = rail true ∨ [a, b] = rail false then
      (readMark? rest).map fun m => { m with depth := m.depth + 1 }
    else match rest with
      | _ :: icon :: _ => some { depth := 0, isLast := decide ([a, b] = connector true), icon }
      | _ => none
  | _ => none

/-- The mark of the node at a spot. -/
def mark (d : Document) (v : Spot) : Mark where
  depth := v.above.length
  isLast := v.isLast
  icon := iconAt d v.id

/-- The mark is read off the line, whatever the label holds. -/
theorem readMark?_row (d : Document) (v : Spot) : readMark? (row d v) = some (mark d v) := by
  obtain ⟨id, above, isLast⟩ := v
  have hconnector (text : List Char) :
      readMark? (connector isLast ++ ' ' :: iconAt d id :: text) =
        some { depth := 0, isLast, icon := iconAt d id } := by
    cases isLast <;> rfl
  have hrail (last : Bool) (text : List Char) : readMark? (rail last ++ text) =
      (readMark? text).map fun m => { m with depth := m.depth + 1 } := by
    cases last <;> rfl
  have hrails (text : List Char) : readMark? (above.flatMap rail ++ text) =
      (readMark? text).map fun m => { m with depth := m.depth + above.length } := by
    induction above with
    | nil =>
      rw [List.flatMap_nil, List.nil_append]
      cases readMark? text <;> rfl
    | cons last above ih =>
      rw [List.flatMap_cons, List.append_assoc, hrail, ih, Option.map_map]
      rfl
  simp only [row, List.append_assoc, List.cons_append, List.nil_append]
  rw [hrails, hconnector]
  simp [mark]

/-- Equal marks belong to forests of one shape, with the same icons. -/
theorem sameShape_of_marks {ids ids' : List NodeId} {spots spots' : List Spot}
    (h : d.Preorder [] ids spots) (h' : e.Preorder [] ids' spots')
    (hmarks : spots.map (mark d) = spots'.map (mark e)) :
    SameShape d e (iconAt d) (iconAt e) ids ids' := by
  have hseen (d : Document) (spots : List Spot) : spots.map (Preorder.seen (iconAt d)) =
      (spots.map (mark d)).map fun m => (m.depth, m.icon) := by
    rw [List.map_map]
    rfl
  have hnone : ∀ m ∈ ([] : List (Nat × Char)).head?, m.1 < 0 := by simp
  refine (h.sameShape h' rfl hnone hnone ?_).1
  rw [List.append_nil, List.append_nil, hseen, hseen, hmarks]

/-- A drawing shows the whole tree. Where the child links have no cycle, they lead to each spot
once; a drawing has the header and one line for each spot, whatever the nodes hold; and the depth of
the node, whether it is the last of its neighbours, and its icon are read off the line alone. With
line numbers each of the lines has its number before it, in two digits at least. So documents that
are drawn the same have the same shape and the same icons. -/
theorem render_shows_tree :
    (∀ d : Document, d.Acyclic → ∃ spots, d.Preorder [] d.roots spots ∧
      (∀ others, d.Preorder [] d.roots others → others = spots) ∧
      Text.pieces '\n' (render false d).toList = header :: spots.map (row d) ++ [[]] ∧
      (∀ v ∈ spots, readMark? (row d v) = some (mark d v)) ∧
      Text.pieces '\n' (render true d).toList =
        header :: spots.map (fun v => lineNumber (d.node v.id).line ++ row d v) ++ [[]]) ∧
    (∀ n, ∃ digits, lineNumber n = digits ++ [' '] ∧ 2 ≤ digits.length ∧
      (∀ c ∈ digits, c.isDigit = true) ∧ Nat.ofDigitChars 10 digits 0 = n) ∧
    ∀ d e : Document, d.Acyclic → e.Acyclic → render false d = render false e →
      SameShape d e (iconAt d) (iconAt e) d.roots e.roots := by
  refine ⟨fun d hd => ?_, lineNumber_eq, fun d e hd he hrender => ?_⟩
  · obtain ⟨spots, hspots⟩ := Preorder.exists_of_acyclic hd [] d.roots
    exact ⟨spots, hspots, fun others hothers => hspots.unique hothers,
      pieces_render hd false hspots, fun v _ => readMark?_row d v, pieces_render hd true hspots⟩
  · obtain ⟨spots, hspots⟩ := Preorder.exists_of_acyclic hd [] d.roots
    obtain ⟨spots', hspots'⟩ := Preorder.exists_of_acyclic he [] e.roots
    have hpieces := pieces_render hd false hspots
    rw [hrender, pieces_render he false hspots', List.append_cancel_right_eq, List.cons.injEq]
      at hpieces
    have hread (d : Document) (spots : List Spot) :
        (spots.map (row d)).map readMark? = (spots.map (mark d)).map some := by
      rw [List.map_map, List.map_map]
      exact List.map_congr_left fun v _ => readMark?_row d v
    have hmarks := congrArg (List.map readMark?) hpieces.2
    simp only [Bool.false_eq_true, if_false] at hmarks
    rw [hread, hread] at hmarks
    have hinjective := List.map_injective_iff.mpr (Option.some_injective Mark)
    exact sameShape_of_marks hspots hspots' (hinjective hmarks).symm

/-! ### Labels that look like lines -/

/-- A role with a name and a text, which hold a line feed, connectors and icons. The end of the text
is not drawn. -/
def connectedDocument (ending : String) : Document where
  nodes := #[{ kind := .role, value := "", line := 1, column := 1, children := [1, 2] },
    { kind := .keywordText, value := "a\n└─ ◉ b", line := 1, column := 7, parent := some 0 },
    { kind := .text, value := "│ ├─ § " ++ "and so on and so on and so on" ++ ending, line := 123,
      column := 5, form := .paragraph, parent := some 0 }]
  role := some 0

private theorem acyclic_connectedDocument (ending : String) :
    (connectedDocument ending).Acyclic := by
  refine acyclic_of_behind fun p i hi => ?_
  match p with
  | 0 =>
    rcases List.mem_cons.mp hi with rfl | hi
    · decide
    · rw [List.mem_singleton.mp hi]
      decide
  | 1 => cases hi
  | 2 => cases hi
  | p + 3 =>
    have hle : (connectedDocument ending).size ≤ p + 3 := Nat.le_add_left 3 p
    rw [node_of_size_le hle] at hi
    cases hi

/-- Each label stays on its line, and the numbered lines are the same behind their numbers.
Documents with different ends of the text are drawn the same, and have the same shape. -/
theorem render_shows_tree_connected :
    (∃ spots, (connectedDocument "!").Preorder [] [0] spots ∧
      spots.map (mark (connectedDocument "!")) =
        [⟨0, true, '◉'⟩, ⟨1, false, '⊤'⟩, ⟨1, true, '¶'⟩] ∧
      render false (connectedDocument "!") = "⧉ Document\n└─ ◉ a⏎└─ ◉ b\n  ├─ ⊤ a⏎└─ ◉ b\n" ++
        "  └─ ¶ │ ├─ § and so on and so on and...\n" ∧
      Text.pieces '\n' (render true (connectedDocument "!")).toList =
        header :: spots.map (fun v => lineNumber ((connectedDocument "!").node v.id).line ++
          row (connectedDocument "!") v) ++ [[]]) ∧
    lineNumber 1 = "01 ".toList ∧ lineNumber 123 = "123 ".toList ∧
    SameShape (connectedDocument "!") (connectedDocument "?") (iconAt (connectedDocument "!"))
      (iconAt (connectedDocument "?")) [0] [0] := by
  obtain ⟨hshown, -, hsame⟩ := render_shows_tree
  obtain ⟨spots, hspots, -, -, -, hnumbered⟩ := hshown _ (acyclic_connectedDocument "!")
  have htext : (connectedDocument "!").Preorder [true] [2] [⟨2, [true], true⟩] :=
    @Preorder.node _ [true] 2 [] [] [] (.nothing _) (.nothing _)
  have hbelow : (connectedDocument "!").Preorder [true] [1, 2]
      [⟨1, [true], false⟩, ⟨2, [true], true⟩] :=
    @Preorder.node _ [true] 1 [2] [] _ (.nothing _) htext
  have hall : (connectedDocument "!").Preorder [] [0]
      [⟨0, [], true⟩, ⟨1, [true], false⟩, ⟨2, [true], true⟩] :=
    @Preorder.node _ [] 0 [] _ [] hbelow (.nothing _)
  refine ⟨⟨spots, hspots, ?_, by decide +kernel, hnumbered⟩, by decide +kernel, by decide +kernel,
    hsame _ _ (acyclic_connectedDocument "!") (acyclic_connectedDocument "?") (by decide +kernel)⟩
  rw [hall.unique hspots]
  decide +kernel

end TreeView

end PromptOutline
