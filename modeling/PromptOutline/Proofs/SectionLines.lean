import Mathlib.Data.List.SplitBy
import PromptOutline.Proofs.ContentLines

/-!
# No content is lost

Every line of an outline that is neither blank nor a comment stands in the prompt exactly once,
the lines of a section together and in their order. An outline with lines joined is written with
its empty rows dropped, so the rows of the prompt are those of the trees, and the trees have the
lines of the source.
-/

namespace PromptOutline

namespace Outline

open Grammar Prompt ContentLine

/-- Lines cut before each line that opens a section. -/
def cutSections (ls : List ContentLine) : List (List ContentLine) :=
  ls.splitBy fun _ next => next.top?.isNone

/-- The texts of the lines of a section. -/
def sectionLines (s : Section) (ls : List ContentLine) : List (List Char) :=
  ((cutSections ls).filter fun part => part.head?.bind (·.top?) = some s.kind).flatten.map (·.text)

/-! ### Trees as sections -/

private theorem treeLines_zero {t : Tree} (h : stripped (rows 0 t) ≠ []) :
    ∃ (first : List Char) (rest : List (List Char)),
      treeLines 0 t = { top? := some t.content.kind, text := first } :: rest.map plain := by
  obtain ⟨first, rest, hrows⟩ := List.exists_cons_of_ne_nil h
  exact ⟨first, rest, by rw [treeLines, hrows]; rfl⟩

private theorem cutSections_one {t : Tree} (h : stripped (rows 0 t) ≠ []) :
    cutSections (treeLines 0 t) = [treeLines 0 t] := by
  obtain ⟨first, rest, htree⟩ := treeLines_zero h
  have hplain : ∀ l ∈ rest.map plain, l.top?.isNone = true := by simp [plain]
  rw [htree]
  refine List.splitBy_of_isChain (List.cons_ne_nil _ _) (List.Pairwise.isChain ?_)
  refine List.pairwise_cons.mpr ⟨hplain, List.pairwise_of_forall_mem_list fun _ _ l hl => ?_⟩
  exact hplain l hl

/-- Lines are cut where trees at the top begin. -/
theorem cutSections_treeLines {ts : List Tree} (h : ∀ t ∈ ts, stripped (rows 0 t) ≠ []) :
    cutSections (ts.flatMap (treeLines 0)) = ts.map (treeLines 0) := by
  induction ts with
  | nil => rfl
  | cons t ts ih =>
    have hrest := ih fun u hu => h u (by simp [hu])
    have hcut : ∀ l ∈ (ts.flatMap (treeLines 0)).head?, l.top?.isNone = false := by
      cases ts with
      | nil => simp
      | cons u ts =>
        obtain ⟨first, rest, hu⟩ := treeLines_zero (h u (by simp))
        simp [hu]
    rw [List.flatMap_cons, cutSections, List.splitBy_append fun _ _ => hcut, List.map_cons]
    rw [cutSections] at hrest
    rw [hrest, ← cutSections, cutSections_one (h t (by simp)), List.singleton_append]

/-- The lines of a section are those of the trees of its kind. -/
theorem sectionLines_treeLines {ts : List Tree} (h : ∀ t ∈ ts, stripped (rows 0 t) ≠ [])
    (s : Section) :
    sectionLines s (ts.flatMap (treeLines 0)) =
      (ts.filter (·.content.kind = s.kind)).flatMap fun t => stripped (rows 0 t) := by
  have hpart : ∀ t ∈ ts, (decide ((treeLines 0 t).head?.bind (·.top?) = some s.kind)) =
      decide (t.content.kind = s.kind) := by
    intro t ht
    obtain ⟨first, rest, htree⟩ := treeLines_zero (h t ht)
    simp [htree]
  rw [sectionLines, cutSections_treeLines h, List.filter_map, List.map_flatten, List.map_map,
    List.flatMap_def]
  congr 1
  have hfilter : ts.filter ((fun part => part.head?.bind (·.top?) = some s.kind) ∘ treeLines 0) =
      ts.filter (·.content.kind = s.kind) := List.filter_congr hpart
  rw [hfilter]
  exact List.map_congr_left fun t _ => map_text_opened _ _

/-- Among trees of different kinds, at most one is of a given kind. -/
theorem filter_kind {ts : List Tree} (h : (ts.map (·.content.kind)).Nodup) (kind : TokenKind) :
    ts.filter (·.content.kind = kind) = (ts.find? (·.content.kind = kind)).toList := by
  induction ts with
  | nil => rfl
  | cons t ts ih =>
    rw [List.map_cons, List.nodup_cons] at h
    by_cases ht : t.content.kind = kind
    · have hnone : ts.filter (·.content.kind = kind) = [] := by
        refine List.filter_eq_nil_iff.mpr fun u hu he => h.1 ?_
        rw [ht, ← of_decide_eq_true he]
        exact List.mem_map_of_mem hu
      simp [ht, hnone]
    · simp [ht, ih h.2]

/-! ### Rows of trees -/

private theorem stripped_rows_ne_nil {t : Tree} (ht : t.content.kind.isBlock = true) (d : Nat) :
    stripped (rows d t) ≠ [] := by
  cases t with
  | node c cs =>
    have hblock : c.kind.isBlock = true := ht
    have htext : c.kind ≠ .text := by
      intro he
      rw [he] at hblock
      cases hblock
    rw [rows, if_neg htext, if_pos hblock, stripped_cons, stripped_headRow hblock]
    exact List.cons_ne_nil _ _

private theorem notMem_headRow {kind : TokenKind} {name? : Option String}
    (hkind : kind.isBlock = true) (hname : ∀ s ∈ name?, '\n' ∉ s.toList) (d : Nat) :
    '\n' ∉ headRow d kind name? := by
  have hword : '\n' ∉ kind.name.toList ++ [':'] := by
    intro hm
    have hblank := (word_of_isBlock hkind).1 _ hm
    revert hblank
    decide
  have hmargin : '\n' ∉ Prompt.margin d := by
    intro hm
    exact absurd (List.eq_of_mem_replicate hm) (by decide)
  have htail : '\n' ∉ (name?.map fun name => ' ' :: name.toList).getD [] := by
    cases name? with
    | none => simp
    | some name => simpa using hname name rfl
  rw [headRow, List.append_assoc _ _ [':']]
  simp only [List.mem_append, not_or] at hword ⊢
  exact ⟨⟨hmargin, hword⟩, htail⟩

private theorem notMem_textRow {cs : List Char} (hcs : '\n' ∉ cs) (d : Nat) :
    '\n' ∉ textRow d cs := by
  unfold textRow
  split
  · simp
  · rw [List.mem_append, not_or]
    exact ⟨fun hm => absurd (List.eq_of_mem_replicate hm) (by decide), hcs⟩

end Outline

namespace Grammar

open Outline Prompt

/-- The trees of tokens whose texts stay on one line have rows without line feeds. -/
theorem Blocks.notMem_rows {kinds : List TokenKind} {ts : List Token} {forest : List Tree}
    (h : Blocks kinds ts forest) (hk : ∀ k ∈ kinds, k.isBlock = true)
    (hline : ∀ t ∈ ts, CarriesText t → '\n' ∉ t.text.toList) :
    ∀ t ∈ forest, ∀ d, ∀ row ∈ rows d t, '\n' ∉ row := by
  induction h with
  | nil => simp
  | @cons kinds keyword indent outdent name? texts inner rest nested others
      hkeyword hname hindent htexts hinner houtdent hrest ihinner ihrest =>
    intro t ht d row hrow
    rcases List.mem_cons.mp ht with rfl | ht
    · have hblock : keyword.kind.isBlock = true := hk _ hkeyword
      have hnestedKinds := isBlock_of_nestedKinds keyword.kind
      have hbody : ∀ t ∈ texts, t.kind = .text ∧ '\n' ∉ t.text.toList := fun t ht =>
        ⟨htexts t ht, hline t (by simp [blockTokens, ht]) (.inl (htexts t ht))⟩
      rw [rows_blockTree hblock hname hbody fun t ht =>
        hnestedKinds _ (hinner.kinds_of_trees t ht)] at hrow
      simp only [List.mem_cons, List.mem_append, List.mem_map] at hrow
      rcases hrow with rfl | ⟨t, ht, rfl⟩ | hrow
      · refine notMem_headRow hblock (fun s hs => ?_) d
        obtain ⟨t, ht, rfl⟩ := Option.map_eq_some_iff.mp hs
        exact hline t (by simp [blockTokens, ht]) (.inr (hname t ht))
      · exact notMem_textRow (hbody t ht).2 (d + 1)
      · rw [rowsAll_eq_flatMap] at hrow
        obtain ⟨t, ht, hrow⟩ := List.mem_flatMap.mp hrow
        refine ihinner hnestedKinds (fun t ht => hline t ?_) t ht (d + 1) row hrow
        simp [blockTokens, ht]
    · exact ihrest hk (fun t ht => hline t (List.mem_append_right _ ht)) t ht d row hrow

end Grammar

namespace Compile

open Grammar Outline Prompt

/-- The texts and names of an outline stay on one line. -/
theorem notMem_of_content {width : UInt64} {fileName source : String} {t : Token}
    (ht : t ∈ content width fileName source) (hcarries : CarriesText t) : '\n' ∉ t.text.toList := by
  obtain ⟨line, hline, hsub⟩ := texts_of_content ht hcarries
  intro hm
  exact (Text.mem_of_mem_lines hline (hsub hm)).2 rfl

/-- A prompt of joined trees has the content of the trees. -/
theorem stripped_linesAll {ts : List Tree}
    (hjoined : ∀ t ∈ ts, ∀ d, filled (rows d t.joined) = filled (rows d t))
    (hline : ∀ t ∈ ts, ∀ d, ∀ row ∈ rows d t, '\n' ∉ row) :
    stripped (Text.pieces '\n' (linesAll 0 (ts.map Tree.joined))) =
      ts.flatMap fun t => stripped (rows 0 t) := by
  have hrows : rowsAll 0 (ts.map Tree.joined) = ts.flatMap fun t => rows 0 t.joined := by
    rw [rowsAll_eq_flatMap, List.flatMap_map]
  have hfree : ∀ row ∈ rowsAll 0 (ts.map Tree.joined), '\n' ∉ row := by
    intro row hrow
    rw [hrows] at hrow
    obtain ⟨t, ht, hrow⟩ := List.mem_flatMap.mp hrow
    -- a row of a joined tree is empty or a row of the tree as it was read
    by_cases hempty : row = []
    · simp [hempty]
    · have hfilled : row ∈ filled (rows 0 t.joined) := List.mem_filter.mpr ⟨hrow, by simpa⟩
      rw [hjoined t ht] at hfilled
      exact hline t ht 0 row (List.mem_filter.mp hfilled).1
  rw [linesAll_eq_rows, Text.pieces_rows hfree, stripped_append, hrows, stripped_flatMap,
    show stripped [[]] = [] from rfl, List.append_nil]
  refine List.flatMap_congr fun t ht => ?_
  rw [← stripped_filled, hjoined t ht, stripped_filled]

/-- The prompt of a document with its lines joined has the rows of joined trees. -/
theorem render_joinLines {ts : List Token} {forest : List Tree} (hdoc : IsDocument ts forest) :
    Prompt.render false (Document.ofForest forest).joinLines =
      String.ofList (linesAll 0 ((Document.ofForest forest).trees.map Tree.joined)) := by
  obtain ⟨ids, hspans, hn⟩ := Document.spans_roots_ofForest hdoc.isBlock hdoc.distinct
  rw [Prompt.render, if_neg (by simp), Prompt.body, Document.trees_joinLines hspans hn]

/-- The prompt of a document with its lines joined has the content of its trees. -/
theorem stripped_prompt {ts : List Token} {forest : List Tree} (hdoc : IsDocument ts forest)
    (hfeed : ∀ t ∈ ts, CarriesText t → '\n' ∉ t.text.toList) :
    stripped (Text.pieces '\n' (Prompt.render false (Document.ofForest forest).joinLines).toList) =
      (Document.ofForest forest).trees.flatMap fun t => stripped (rows 0 t) := by
  have hsub := (Document.trees_perm_ofForest hdoc.isBlock hdoc.distinct).subset
  rw [render_joinLines hdoc, String.toList_ofList]
  exact stripped_linesAll (fun t ht => hdoc.blocks.filled_joined t (hsub ht))
    fun t ht => hdoc.blocks.notMem_rows isBlock_of_topKinds hfeed t (hsub ht)

/-- A text that is read with its lines joined is read first and then joined. -/
theorem joinLines_of_text {w : Workspace} {options : ReadOptions}
    {fileName source : String} {d : Document} (hjoin : options.joinLines = true)
    (h : text w options fileName source = .ok d) :
    ∃ e, parseText w options.width options.searchPaths fileName source = .ok e ∧
      d = e.joinLines := by
  rw [text] at h
  cases hparse : parseText w options.width options.searchPaths fileName source with
  | error problems =>
    rw [hparse] at h
    cases h
  | ok e =>
    rw [hparse] at h
    cases h
    exact ⟨e, rfl, by rw [finish, if_pos hjoin]⟩

/-- Reading an outline without directives, joining its lines and writing it as a prompt loses and
invents no content: the lines of the prompt are those of the outline, section by section, each
exactly once. -/
theorem text_keeps_content {w : Workspace} {options : ReadOptions} {fileName source : String}
    {d : Document} (hwidth : PlainWidth options.width) (hplain : Undirected source)
    (hjoin : options.joinLines = true) (h : text w options fileName source = .ok d) :
    stripped (Text.pieces '\n' (Prompt.render false d).toList) =
        sectionLines .role (contentLines source) ++ sectionLines .context (contentLines source) ++
          sectionLines .action (contentLines source) ∧
      (stripped (Text.pieces '\n' (Prompt.render false d).toList)).Perm
        ((contentLines source).map (·.text)) := by
  obtain ⟨e, he, rfl⟩ := joinLines_of_text hjoin h
  obtain ⟨forest, hdoc, rfl⟩ :=
    (parseText_eq_ok_iff hwidth hplain w options.searchPaths fileName e).mp he
  have hfeed : ∀ t ∈ content options.width fileName source, CarriesText t →
      '\n' ∉ t.text.toList := fun t ht => notMem_of_content ht
  have hlines : contentLines source = forest.flatMap (treeLines 0) := by
    rw [← tokenLines_content hwidth hplain hdoc.good,
      hdoc.blocks.tokenLines_eq isBlock_of_topKinds hfeed]
  rw [stripped_prompt hdoc hfeed]
  constructor
  · have hsection (s : Section) : sectionLines s (contentLines source) =
        ((Document.ofForest forest).sectionTree? s).toList.flatMap
          fun t => stripped (rows 0 t) := by
      rw [hlines, sectionLines_treeLines fun t ht => stripped_rows_ne_nil (hdoc.isBlock t ht) 0,
        filter_kind hdoc.distinct, Document.sectionTree?_ofForest]
    rw [hsection, hsection, hsection, Document.trees_eq_sections,
      List.filterMap_eq_flatMap_toList, List.flatMap_assoc]
    simp [Section.all]
  · have htexts : (contentLines source).map (·.text) =
        forest.flatMap fun t => stripped (rows 0 t) := by
      rw [hlines, List.map_flatMap]
      exact List.flatMap_congr fun t _ => ContentLine.map_text_opened _ _
    rw [htexts]
    exact (Document.trees_perm_ofForest hdoc.isBlock hdoc.distinct).flatMap_right _

/-- A context before a role, with lines to join, an empty line, a comment and extra spaces. -/
def joinedSample : String := "context:  Plan\n  a\n    b\n\n  c\nRole:\n  # note\n  r\n"

/-- The sample is read, and its prompt holds the lines of the role and then those of the context. -/
theorem text_keeps_content_joinedSample :
    PlainWidth 2 ∧ Undirected joinedSample ∧
      ∃ d, text {} { width := 2 } "plan" joinedSample = .ok d ∧
        stripped (Text.pieces '\n' (Prompt.render false d).toList) =
          ["Role:", "r", "Context: Plan", "a", "b", "c"].map String.toList := by
  have hwidth : PlainWidth 2 := ⟨by decide, by decide⟩
  have hplain : Undirected joinedSample := by decide +kernel
  have hbuild : (Builder.build ((content 2 "plan" joinedSample).map .token)
      (.finished (Token.endOfFile "plan"
        ((Text.lines joinedSample.toList).length + 1)))).toOption.isSome = true := by
    decide +kernel
  have hlines : sectionLines .role (contentLines joinedSample) ++
      sectionLines .context (contentLines joinedSample) ++
        sectionLines .action (contentLines joinedSample) =
      ["Role:", "r", "Context: Plan", "a", "b", "c"].map String.toList := by
    decide +kernel
  refine ⟨hwidth, hplain, ?_⟩
  cases hparse : parseText {} 2 [] "plan" joinedSample with
  | error problems =>
    rw [← parseText_eq_build hplain {} 2 [] "plan", hparse] at hbuild
    cases hbuild
  | ok e =>
    have htext : text {} { width := 2 } "plan" joinedSample = .ok e.joinLines := by
      rw [text, hparse]
      rfl
    exact ⟨_, htext, (text_keeps_content hwidth hplain rfl htext).1.trans hlines⟩

end Compile

end PromptOutline
