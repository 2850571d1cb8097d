import PromptOutline.Proofs.Embedded
import PromptOutline.Proofs.Rereading
import PromptOutline.Proofs.SectionLines

/-!
# Prompts of prompts

Joining lines drops some empty lines and puts the others into paragraphs and regions, which have the
rows of their lines. So joined trees have the rows of trees with single lines, those of which the
dropped lines are left out. Such compact trees can be printed and read again, and joining drops no
more of their lines: the prompt of a prompt is the prompt itself.
-/

namespace PromptOutline

namespace Tree

open Prompt

/-! ### Lines that stay -/

/-- The trees that keep their rows when lines are gathered: an empty line stays only in a region.
`fenced` says whether a region is open before the trees. -/
def settle (fenced : Bool) : List Tree → List Tree
  | [] => []
  | t :: ts =>
    if !t.isLine then t :: settle false ts
    else if fenced then t :: settle (!Document.isFence t.content.value) ts
    else if t.content.value.isEmpty then settle false ts
    else t :: settle (Document.isFence t.content.value) ts

mutual

/-- A tree without the lines that joining would drop, everywhere below it. -/
def compact : Tree → Tree
  | node c cs => node c (settle false (compactAll cs))

/-- Neighbouring trees, each without the lines that joining would drop below it. -/
def compactAll : List Tree → List Tree
  | [] => []
  | t :: ts => compact t :: compactAll ts

end

private theorem compactAll_eq_map (ts : List Tree) : compactAll ts = ts.map compact := by
  induction ts with
  | nil => rfl
  | cons t ts ih => rw [compactAll, ih, List.map_cons]

/-- Compacting a tree leaves its own content as it is. -/
@[simp] theorem content_compact (t : Tree) : t.compact.content = t.content := by
  cases t
  rfl

private theorem mem_of_mem_settle {fenced : Bool} {t : Tree} {ts : List Tree}
    (h : t ∈ settle fenced ts) : t ∈ ts := by
  fun_induction settle fenced ts with
  | case1 => exact h
  | case2 _ u ts _ ih | case3 u ts _ ih | case5 _ u ts _ _ _ ih =>
    exact (List.mem_cons.mp h).elim (· ▸ List.mem_cons_self) fun h => List.mem_cons_of_mem u (ih h)
  | case4 _ u ts _ _ _ ih => exact List.mem_cons_of_mem u (ih h)

/-- What stays depends on no more than which trees are lines, and on their values. -/
theorem settle_map {f : Tree → Tree} (hline : ∀ t, (f t).isLine = t.isLine)
    (hvalue : ∀ t, (f t).content.value = t.content.value) (fenced : Bool) (ts : List Tree) :
    settle fenced (ts.map f) = (settle fenced ts).map f := by
  induction ts generalizing fenced with
  | nil => rfl
  | cons t ts ih =>
    simp only [List.map_cons, settle, hline, hvalue, ih]
    split_ifs <;> simp

/-- What stays once stays again. -/
theorem settle_settle (fenced : Bool) (ts : List Tree) :
    settle fenced (settle fenced ts) = settle fenced ts := by
  fun_induction settle fenced ts with
  | case1 => rfl
  | case2 _ t ts hline ih => simp only [settle, hline, if_true, ih]
  | case3 t ts hline ih => simp [settle, hline, ih]
  | case4 fenced t ts _ hfenced _ ih => rwa [Bool.eq_false_iff.mpr hfenced]
  | case5 _ t ts hline hfenced hempty ih => simp [settle, hline, hfenced, hempty, ih]

/-- Trees that are no lines stay. -/
theorem settle_of_forall {ts : List Tree} (h : ∀ t ∈ ts, t.isLine = false) (fenced : Bool) :
    settle fenced ts = ts := by
  induction ts generalizing fenced with
  | nil => rfl
  | cons t ts ih => simp [settle, h t (by simp), ih fun u hu => h u (by simp [hu])]

private theorem isLine_compact (t : Tree) : t.compact.isLine = t.isLine := by
  rw [isLine, isLine, content_compact]

private theorem compact_compact (t : Tree) : t.compact.compact = t.compact := by
  have hall (ts : List Tree) : compactAll (compactAll ts) = compactAll ts := by
    induction ts using forest_induction with
    | nil => rfl
    | cons c below beside ihbelow ihbeside =>
      have hbelow : compactAll (settle false (compactAll below)) =
          settle false (compactAll below) := by
        rw [compactAll_eq_map, ← settle_map isLine_compact (fun t => by rw [content_compact]),
          ← compactAll_eq_map, ihbelow]
      simp only [compactAll, compact, hbelow, settle_settle, ihbeside]
  exact (List.cons.inj (hall [t])).1

/-! ### Places -/

private theorem isLine_bare (t : Tree) : t.bare.isLine = t.isLine := by
  cases t
  rfl

private theorem value_bare (t : Tree) : t.bare.content.value = t.content.value := by
  cases t
  rfl

private theorem compactAll_bareAll (ts : List Tree) :
    compactAll (bareAll ts) = bareAll (compactAll ts) := by
  induction ts using forest_induction with
  | nil => rfl
  | cons c below beside ihbelow ihbeside =>
    simp only [bareAll, bare, compactAll, compact, ihbelow, ihbeside]
    rw [bareAll_eq_map (compactAll below), settle_map isLine_bare value_bare, ← bareAll_eq_map]

/-- Rows do not tell places. -/
theorem rowsAll_bareAll (d : Nat) (ts : List Tree) : rowsAll d (bareAll ts) = rowsAll d ts := by
  induction ts using forest_induction generalizing d with
  | nil => rfl
  | cons c below beside ihbelow ihbeside =>
    have hname : (node c.bare (bareAll below)).name? = (node c below).name? := by
      rcases below with _ | ⟨⟨_, _⟩, _⟩ <;> rfl
    simp only [bareAll, bare, rowsAll, rows, hname, ihbelow, ihbeside]
    rfl

/-! ### The rows of gathered lines -/

/-- A step keeps the rows so far, and it adds those of the tree unless the tree is dropped. -/
theorem Gathering.rows_step {g : Gathering} (hg : g.OpenText) (t : Tree) (ts : List Tree)
    (d : Nat) :
    rowsAll d (g.step t).kept ++ rowsAll d (settle (g.step t).inFence ts) =
      rowsAll d g.kept ++ rowsAll d (settle g.inFence (t :: ts)) := by
  have hadd {u : Tree} (hline : t.isLine = true) (hu : u ∈ g.target.toList) :
      rowsAll d (g.done ++ [u.addLine t.content.value]) =
        rowsAll d (g.done ++ [u]) ++ rows d t := by
    simp only [rowsAll_append, rowsAll_singleton, rows_addLine (kind_of_isLine hline) (hg u hu),
      List.append_assoc]
  have hstep := steps_step g t
  generalize g.step t = r at hstep
  cases hstep with
  | kept hline =>
    simp [settle, hline, Gathering.kept, inFence, Target.toList, rowsAll_append, rowsAll]
  | dropped hline hempty hopen =>
    simp [settle, hline, hempty, Gathering.kept, inFence, Target.toList]
  | openFence hline hempty hfence hopen =>
    simp [settle, hline, hempty, hfence, Gathering.kept, inFence,
      Target.toList, rowsAll_append, rowsAll, rows_withForm (kind_of_isLine hline)]
  | openParagraph hline hempty hfence hclosed =>
    simp [settle, hline, hempty, hfence, hclosed, Gathering.kept, inFence, Target.toList,
      rowsAll_append, rowsAll, rows_withForm (kind_of_isLine hline)]
  | @joinParagraph u hline hempty hfence hopen =>
    have hrows := hadd hline (show u ∈ g.target.toList by simp [hopen, Target.toList])
    simp [settle, hline, hempty, hfence, hopen, Gathering.kept, inFence, Target.toList, hrows,
      rowsAll]
  | @joinFence u hline hfence hopen =>
    have hrows := hadd hline (show u ∈ g.target.toList by simp [hopen, Target.toList])
    simp [settle, hline, hfence, hopen, Gathering.kept, inFence, Target.toList, hrows, rowsAll]
  | @closeFence u hline hfence hopen =>
    have hrows := hadd hline (show u ∈ g.target.toList by simp [hopen, Target.toList])
    simp [settle, hline, hfence, hopen, Gathering.kept, inFence, Target.toList, hrows, rowsAll]

/-- Gathered trees have the rows of the trees that stay. -/
theorem rows_gather (d : Nat) (ts : List Tree) :
    rowsAll d (gather ts) = rowsAll d (settle false ts) := by
  have hfold (ts : List Tree) (g : Gathering) (hg : g.OpenText) :
      rowsAll d (ts.foldl Gathering.step g).kept =
        rowsAll d g.kept ++ rowsAll d (settle g.inFence ts) := by
    induction ts generalizing g with
    | nil => simp [settle, rowsAll]
    | cons t ts ih => rw [List.foldl_cons, ih _ (hg.step t), Gathering.rows_step hg]
  exact hfold ts {} (by simp [Gathering.OpenText, Target.toList])

private theorem rows_settle_congr {f g : Tree → Tree} {d : Nat} {ts : List Tree}
    (hf : ∀ t, (f t).content = t.content) (hg : ∀ t, (g t).content = t.content)
    (h : ∀ t ∈ ts, rows d (f t) = rows d (g t)) (fenced : Bool) :
    rowsAll d (settle fenced (ts.map f)) = rowsAll d (settle fenced (ts.map g)) := by
  have hmap {f : Tree → Tree} (hf : ∀ t, (f t).content = t.content) :
      settle fenced (ts.map f) = (settle fenced ts).map f :=
    settle_map (fun t => by rw [isLine, isLine, hf]) (fun t => by rw [hf]) fenced ts
  rw [hmap hf, hmap hg, rowsAll_eq_flatMap, rowsAll_eq_flatMap, List.flatMap_map, List.flatMap_map]
  exact List.flatMap_congr fun t ht => h t (mem_of_mem_settle ht)

/-- A name stays where it is, if it is the first of the trees. -/
theorem name?_compact {c : Content} {cs : List Tree}
    (hnames : ∀ t ∈ cs.tail, t.content.kind ≠ .keywordText) :
    (node c cs).compact.name? = (node c cs).name? := by
  rw [compact, compactAll_eq_map]
  cases cs with
  | nil => rfl
  | cons t cs =>
    by_cases ht : t.content.kind = .keywordText
    · have hline : t.compact.isLine = false := by simp [isLine, Content.isText, ht]
      rw [List.map_cons, settle, hline]
      cases t
      rfl
    · have hall : ∀ u ∈ t :: cs, u.content.kind ≠ .keywordText := by
        intro u hu
        rcases List.mem_cons.mp hu with rfl | hu
        · exact ht
        · exact hnames u hu
      rw [name?_of_forall hall]
      apply name?_of_forall
      intro u hu
      obtain ⟨v, hv, rfl⟩ := List.mem_map.mp (mem_of_mem_settle hu)
      rw [content_compact]
      exact hall v hv

/-- If joined trees below a node have the rows of compact ones, so does the node. -/
theorem rows_joined {c : Content} {cs : List Tree}
    (hnames : ∀ t ∈ cs.tail, t.content.kind ≠ .keywordText)
    (hbelow : ∀ t ∈ cs, ∀ d, rows d t.joined = rows d t.compact) (d : Nat) :
    rows d (node c cs).joined = rows d (node c cs).compact := by
  have hall : rowsAll (d + 1) (gather (joinedBelow cs)) =
      rowsAll (d + 1) (settle false (compactAll cs)) := by
    rw [rows_gather, joinedBelow_eq_map, compactAll_eq_map]
    refine rows_settle_congr (fun t => ?_) content_compact (fun t ht => ?_) false
    · split <;> simp
    · split
      · next htext =>
        have hkind : t.content.kind = .text := by simpa [Content.isText] using htext
        rw [rows_of_text hkind, rows_of_text (by rw [content_compact, hkind]), content_compact]
      · exact hbelow t ht (d + 1)
  have hname : (node c cs).joined.name? = (node c cs).compact.name? :=
    (name?_joined hnames).trans (name?_compact hnames).symm
  rw [joined, compact] at hname ⊢
  rw [rows, rows, hname, hall]

end Tree

namespace Grammar

open Outline Prompt

/-! ### Printable trees -/

/-- Below a keyword, lines stay in front of the blocks, and a first line that is not empty stays the
first. -/
theorem settle_body {texts : List Content} {nested : List Tree}
    (hnested : ∀ t ∈ nested, t.isLine = false)
    (htexts : ∀ c ∈ texts, c.kind = .text ∧ c.form = .line) (fenced : Bool) :
    ∃ kept : List Content,
      Tree.settle fenced (texts.map (Tree.node · []) ++ nested) =
        kept.map (Tree.node · []) ++ nested ∧
      kept ⊆ texts ∧
      ∀ c ∈ texts.head?, c.value.isEmpty = false → kept.head? = some c := by
  induction texts generalizing fenced with
  | nil => exact ⟨[], Tree.settle_of_forall hnested fenced, by simp, by simp⟩
  | cons c texts ih =>
    have hline : (Tree.node c []).isLine = true := by
      simp [Tree.isLine, Content.isText, Tree.content, htexts c (by simp)]
    have hkeep (next : Bool) : ∃ kept : List Content,
        Tree.node c [] :: Tree.settle next (texts.map (Tree.node · []) ++ nested) =
          kept.map (Tree.node · []) ++ nested ∧ kept ⊆ c :: texts ∧ kept.head? = some c := by
      obtain ⟨kept, hsettle, hsub, -⟩ := ih (fun u hu => htexts u (by simp [hu])) next
      exact ⟨c :: kept, by rw [hsettle]; rfl, List.cons_subset_cons c hsub, rfl⟩
    simp only [List.map_cons, List.cons_append, Tree.settle, hline, Bool.not_true,
      Bool.false_eq_true, if_false]
    split
    · obtain ⟨kept, hsettle, hsub, hhead⟩ := hkeep (!Document.isFence c.value)
      exact ⟨kept, hsettle, hsub, by simpa using fun _ => hhead⟩
    · split
      · next hempty =>
        obtain ⟨kept, hsettle, hsub, -⟩ := ih (fun u hu => htexts u (by simp [hu])) false
        refine ⟨kept, hsettle, List.Subset.trans hsub (List.subset_cons_self c texts), ?_⟩
        rintro _ ⟨⟩ hne
        exact absurd (hne.symm.trans hempty) (by simp)
      · obtain ⟨kept, hsettle, hsub, hhead⟩ := hkeep (Document.isFence c.value)
        exact ⟨kept, hsettle, hsub, by simpa using fun _ => hhead⟩

private theorem isLine_of_isBlock {t : Tree} (h : t.content.kind.isBlock = true) :
    t.isLine = false := by
  cases hkind : t.content.kind with
  | text =>
    rw [hkind] at h
    cases h
  | _ => simp [Tree.isLine, Content.isText, hkind]

/-- Compact trees can be printed where the trees can be. -/
theorem Printable.compact {kinds : List TokenKind} {forest : List Tree}
    (h : Printable kinds forest) : Printable kinds (forest.map Tree.compact) := by
  induction h with
  | nil => exact .nil
  | @cons kinds keyword name? texts nested others hkeyword hvalue hform hname htexts hfirst hbody
      hnested hothers ihnested ihothers =>
    have hblocks : ∀ t ∈ nested.map Tree.compact, t.isLine = false := by
      intro t ht
      exact isLine_of_isBlock (isBlock_of_nestedKinds _ _ (ihnested.kinds_of_mem t ht))
    obtain ⟨kept, hsettle, hsub, hhead⟩ :=
      settle_body hblocks (fun c hc => ⟨(htexts c hc).1, (htexts c hc).2.1⟩) false
    -- the first text starts with content, so it stays
    have hstays : ∀ c ∈ texts.head?, kept.head? = some c := by
      intro c hc
      obtain ⟨a, rest, hvalue, -⟩ := hfirst c hc
      refine hhead c hc ?_
      rw [String.isEmpty_eq_false_iff]
      rintro he
      rw [he] at hvalue
      cases hvalue
    have hleaves (cs : List Content) :
        (cs.map (Tree.node · [])).map Tree.compact = cs.map (Tree.node · []) := by
      rw [List.map_map]
      rfl
    have hbelow : Tree.settle false (Tree.compactAll
        (name?.toList.map (.node · []) ++ (texts.map (.node · []) ++ nested))) =
          name?.toList.map (.node · []) ++ (kept.map (.node · []) ++ nested.map Tree.compact) := by
      rw [Tree.compactAll_eq_map, List.map_append, List.map_append, hleaves, hleaves]
      cases name? with
      | none => exact hsettle
      | some c =>
        have hline : (Tree.node c []).isLine = false := by
          simp [Tree.isLine, Content.isText, Tree.content, (hname c rfl).1]
        simp [Tree.settle, hline, hsettle]
    rw [List.map_cons, Tree.compact, hbelow]
    refine .cons hkeyword hvalue hform hname (fun c hc => htexts c (hsub hc)) ?_ ?_ ihnested
      ihothers
    · intro c hc
      cases texts with
      | nil =>
        rw [List.subset_nil.mp hsub] at hc
        cases hc
      | cons first texts =>
        rw [hstays first rfl] at hc
        exact hfirst c hc
    · intro hempty
      cases texts with
      | nil => simpa using hbody rfl
      | cons first texts =>
        have hsome := hstays first rfl
        rw [hempty] at hsome
        cases hsome

/-- Joined printable trees have the rows of compact ones. -/
theorem Printable.rows_joined {kinds : List TokenKind} {forest : List Tree}
    (h : Printable kinds forest) :
    ∀ t ∈ forest, ∀ d, rows d t.joined = rows d t.compact := by
  induction h with
  | nil => simp
  | @cons kinds keyword name? texts nested others hkeyword hvalue hform hname htexts hfirst hbody
      hnested hothers ihnested ihothers =>
    intro t ht d
    rcases List.mem_cons.mp ht with rfl | ht
    · refine Tree.rows_joined (fun t ht => ?_) (fun t ht d => ?_) d
      · have hmem : t ∈ texts.map (Tree.node · []) ++ nested := by
          cases name? with
          | none => exact List.mem_of_mem_tail ht
          | some c => exact ht
        rcases List.mem_append.mp hmem with hmem | hmem
        · obtain ⟨c, hc, rfl⟩ := List.mem_map.mp hmem
          simp [Tree.content, (htexts c hc).1]
        · intro he
          have hblock := isBlock_of_nestedKinds _ _ (hnested.kinds_of_mem t hmem)
          rw [he] at hblock
          cases hblock
      · rcases List.mem_append.mp ht with ht | ht
        · obtain ⟨c, -, rfl⟩ := List.mem_map.mp ht
          rfl
        · rcases List.mem_append.mp ht with ht | ht
          · obtain ⟨c, -, rfl⟩ := List.mem_map.mp ht
            rfl
          · exact ihnested t ht d
    · exact ihothers t ht d

private theorem Printable.linesAll_joined {kinds : List TokenKind} {forest : List Tree}
    (h : Printable kinds forest) (d : Nat) :
    linesAll d (forest.map Tree.joined) = linesAll d (Tree.compactAll forest) := by
  rw [Tree.compactAll_eq_map, linesAll_eq_rows, linesAll_eq_rows, rowsAll_eq_flatMap,
    rowsAll_eq_flatMap, List.flatMap_map, List.flatMap_map]
  congr 1
  exact List.flatMap_congr fun t ht => h.rows_joined t ht d

end Grammar

namespace Compile

open Grammar Outline Prompt

/-! ### Whole prompts -/

/-- Prompts of printable trees have no carriage returns. -/
theorem notMem_linesAll {ts : List Tree} (h : Printable topKinds ts) :
    '\r' ∉ (String.ofList (linesAll 0 ts)).toList := by
  rw [String.toList_ofList, linesAll_eq_rows]
  intro hm
  obtain ⟨row, hrow, hm⟩ := List.mem_flatMap.mp hm
  rcases List.mem_append.mp hm with hm | hm
  · exact (isPlainRow_of_printable h isBlock_of_topKinds 0 row hrow).1.2 hm
  · simp at hm

/-- The trees of a document that is built of the trees of some sections, places aside. -/
theorem bareAll_trees_ofForest {tree? : Section → Option Tree} {again : List Tree}
    (hkinds : ∀ s, ∀ t ∈ tree? s, t.content.kind = s.kind)
    (h : Tree.bareAll again = Tree.bareAll (Section.all.filterMap tree?)) :
    Tree.bareAll (Document.ofForest again).trees =
      Tree.bareAll (Section.all.filterMap tree?) := by
  rw [Document.trees_eq_sections, Tree.bareAll_eq_map, Tree.bareAll_eq_map, List.map_filterMap,
    List.map_filterMap]
  refine List.filterMap_congr fun s _ => ?_
  rw [Document.sectionTree?_ofForest, Tree.find?_of_bareAll h, Document.find?_sections hkinds]

/-- Reading a prompt of compact sections, joining its lines and writing it again gives the same
prompt. -/
theorem text_compact {w : Workspace} {fileName : String} {tree? : Section → Option Tree}
    (hprint : Printable topKinds (Section.all.filterMap tree?))
    (hkinds : ∀ s, ∀ t ∈ tree? s, t.content.kind = s.kind)
    (hcompact : ∀ s, ∀ t ∈ tree? s, t.compact = t) :
    ∃ again, text w {} fileName (String.ofList (linesAll 0 (Section.all.filterMap tree?))) =
        .ok again ∧
      Prompt.render false again = String.ofList (linesAll 0 (Section.all.filterMap tree?)) := by
  generalize htrees : Section.all.filterMap tree? = trees at hprint ⊢
  have hwidth : PlainWidth 4 := ⟨by decide, by decide⟩
  obtain ⟨hplain, forest, hdoc, hbare⟩ :=
    isDocument_prompt hprint (htrees ▸ Document.nodup_sections hkinds) fileName
  have hparse : parseText w 4 [] fileName (String.ofList (linesAll 0 trees)) =
      .ok (.ofForest forest) :=
    (parseText_eq_ok_iff hwidth hplain w [] fileName _).mpr ⟨forest, hdoc, rfl⟩
  refine ⟨(Document.ofForest forest).joinLines, ?_, ?_⟩
  · rw [text, hparse]
    rfl
  have hagain := (printable_of_parseText hwidth (notMem_linesAll hprint) hplain hparse).1
  have hsame : Tree.compactAll trees = trees := by
    have hall : ∀ t ∈ trees, t.compact = id t := by
      intro t ht
      rw [← htrees] at ht
      obtain ⟨s, -, hs⟩ := List.mem_filterMap.mp ht
      exact hcompact s t hs
    rw [Tree.compactAll_eq_map, List.map_congr_left hall, List.map_id]
  rw [render_joinLines hdoc, hagain.linesAll_joined, linesAll_eq_rows, linesAll_eq_rows]
  congr 2
  subst htrees
  calc rowsAll 0 (Tree.compactAll (Document.ofForest forest).trees)
    _ = rowsAll 0 (Tree.compactAll (Tree.bareAll (Document.ofForest forest).trees)) := by
      rw [Tree.compactAll_bareAll, Tree.rowsAll_bareAll]
    _ = rowsAll 0 (Tree.compactAll (Tree.bareAll (Section.all.filterMap tree?))) := by
      rw [bareAll_trees_ofForest hkinds hbare]
    _ = rowsAll 0 (Section.all.filterMap tree?) := by
      rw [Tree.compactAll_bareAll, Tree.rowsAll_bareAll, hsame]

/-- Reading, joining and writing is a fixed point on its own output: a prompt is read, and written
again it is the same. This holds for every outline without carriage returns and directives. -/
theorem text_fixed_point {w w' : Workspace} {options : ReadOptions}
    {fileName fileName' source : String} {d : Document} (hwidth : PlainWidth options.width)
    (hreturn : '\r' ∉ source.toList) (hplain : Undirected source)
    (hjoin : options.joinLines = true) (h : text w options fileName source = .ok d) :
    ∃ again, text w' {} fileName' (Prompt.render false d) = .ok again ∧
      Prompt.render false again = Prompt.render false d := by
  obtain ⟨e, he, rfl⟩ := joinLines_of_text hjoin h
  obtain ⟨hprint, hkinds⟩ := printable_of_parseText hwidth hreturn hplain he
  obtain ⟨forest, hdoc, rfl⟩ :=
    (parseText_eq_ok_iff hwidth hplain w options.searchPaths fileName e).mp he
  have htrees : Tree.compactAll (Document.ofForest forest).trees =
      Section.all.filterMap fun s =>
        ((Document.ofForest forest).sectionTree? s).map Tree.compact := by
    rw [Document.trees_eq_sections, Tree.compactAll_eq_map, List.map_filterMap]
  rw [render_joinLines hdoc, hprint.linesAll_joined, htrees]
  refine text_compact ?_ ?_ ?_
  · rw [← htrees, Tree.compactAll_eq_map]
    exact hprint.compact
  · intro s t ht
    obtain ⟨u, hu, rfl⟩ := Option.map_eq_some_iff.mp ht
    rw [Tree.content_compact]
    exact hkinds s u hu
  · intro s t ht
    obtain ⟨u, -, rfl⟩ := Option.map_eq_some_iff.mp ht
    exact Tree.compact_compact u

/-- A paragraph that an empty line cuts, and a region with an empty line that nothing closes. -/
def regionSample : String :=
  "Context: Plan\n  a\n\n  b\n  \x60\x60\x60\n    c\n\n  d\nRole:\n  r\n"

/-- The sample as it is printed. -/
def regionPrompt : String :=
  "Role:\n    r\nContext: Plan\n    a\n    b\n    \x60\x60\x60\n      c\n\n    d\n"

/-- The prompt of the sample keeps the empty line of the region only, and it is its own prompt. -/
theorem text_fixed_point_regionSample :
    '\r' ∉ regionSample.toList ∧ Undirected regionSample ∧
      ∃ d, text {} { width := 2 } "plan" regionSample = .ok d ∧
        Prompt.render false d = regionPrompt ∧
        ∃ again, text {} {} "prompt" regionPrompt = .ok again ∧
          Prompt.render false again = regionPrompt := by
  have hreturn : '\r' ∉ regionSample.toList := by decide +kernel
  have hplain : Undirected regionSample := by decide +kernel
  have hbuild : (Builder.build ((content 2 "plan" regionSample).map .token)
      (.finished (Token.endOfFile "plan"
        ((Text.lines regionSample.toList).length + 1)))).toOption.map
          (Prompt.render false ·.joinLines) = some regionPrompt := by
    decide +kernel
  refine ⟨hreturn, hplain, ?_⟩
  cases hparse : parseText {} 2 [] "plan" regionSample with
  | error problems =>
    rw [← parseText_eq_build hplain {} 2 [] "plan", hparse] at hbuild
    cases hbuild
  | ok e =>
    have htext : text {} { width := 2 } "plan" regionSample = .ok e.joinLines := by
      rw [text, hparse]
      rfl
    rw [← parseText_eq_build hplain {} 2 [] "plan", hparse] at hbuild
    have hrender : Prompt.render false e.joinLines = regionPrompt := Option.some.inj hbuild
    refine ⟨_, htext, hrender, ?_⟩
    rw [← hrender]
    exact text_fixed_point ⟨by decide, by decide⟩ hreturn hplain rfl htext

end Compile

end PromptOutline
