import PromptOutline.Proofs.Embedded
import PromptOutline.Proofs.Varying

/-!
# Embedded contents are inert

A reading looks at names and patterns, at outlines, and at nothing else. Where workspaces differ
only in the contents of files that are not read as outlines, reading succeeds on both or on neither,
and the documents show the same once the lines of these files are left out. Contents cannot open,
name or close a block, nor be taken for a directive, nor hide anything that stands around them. The
only other trace of a file is the line number of the fence behind it, which counts its lines.
-/

namespace PromptOutline

/-! ### Nodes and their tokens -/

/-- Nodes that are written down hold what their trees do, from the top down. -/
theorem Tree.contents_nodesAll (parent : Option NodeId) (id depth : Nat) (ts : List Tree) :
    (nodesAll parent id ts).map (·.toContent) = (preorderAll depth ts).map (·.2) := by
  induction ts using forest_induction generalizing parent id depth with
  | nil => rfl
  | cons c below beside ihbelow ihbeside =>
    simp only [nodesAll, nodes, preorderAll, preorder, List.cons_append, List.map_cons,
      List.map_append, ihbelow (some id) (id + 1) (depth + 1), ihbeside parent _ depth]

namespace Grammar

/-- The nodes of a document are those of its tokens, in order. -/
theorem IsDocument.contents {ts : List Token} {forest : List Tree} (h : IsDocument ts forest) :
    (Document.ofForest forest).nodes.toList.map (·.toContent) =
      (ts.filter isNode).map Content.ofToken := by
  rw [← h.blocks.contents isBlock_of_topKinds 0]
  exact Tree.contents_nodesAll none 0 0 forest

private theorem filter_isNode_closing {closing : List Token} (h : ∀ t ∈ closing, t.kind = .outdent)
    (ts : List Token) : (ts ++ closing).filter isNode = ts.filter isNode := by
  have hnone : closing.filter isNode = [] := by
    rw [List.filter_eq_nil_iff]
    intro t ht
    simp [isNode, h t ht, TokenKind.hasLine, TokenKind.isBlock]
  rw [List.filter_append, hnone, List.append_nil]

end Grammar

namespace Embedding.Part

/-- A node without embedded contents, by the token it was made from: lines are left out. -/
def unlined : Part → Content → Option Content
  | .line, _ => none
  | _, c => some c

/-- A node without any trace of embedded contents: lines are left out, and the fences behind them
have no line number. -/
def untraced : Part → Content → Option Content
  | .line, _ => none
  | .closing, c => some { c with line := 0 }
  | .other, c => some c

end Embedding.Part

namespace Document

open PromptOutline.Embedding

/-- What is left of a node without the contents of files that are embedded from some locations. The
tokens that the nodes were made from tell which of them hold such contents. -/
def partView (d : Document) (left : Part → Content → Option Content) (w : Workspace)
    (files : List Location) (ts : List Token) (id : NodeId) : Option Content :=
  match ts[id]? with
  | some t => left (part w files t) (d.node id).toContent
  | none => some (d.node id).toContent

variable {d : Document} {w : Workspace} {files : List Location} {ts : List Token}

/-- The nodes of a document that was made from tokens carry these tokens. -/
theorem content_of_tokens (h : d.nodes.toList.map (·.toContent) = ts.map Content.ofToken)
    {id : NodeId} {t : Token} (ht : ts[id]? = some t) : (d.node id).toContent = .ofToken t := by
  have hget := congrArg (·[id]?) h
  simp only [List.getElem?_map, ht, Option.map_some, Option.map_eq_some_iff] at hget
  obtain ⟨n, hn, hcontent⟩ := hget
  rw [Array.getElem?_toList] at hn
  rw [node, hn, Option.getD_some, hcontent]

private theorem untraced_part (t : Token) :
    (part w files t).untraced (.ofToken t) = (hushed w files t).map Content.ofToken := by
  rw [hushed]
  cases part w files t <;> rfl

/-- A document without embedded contents shows the tokens without them. -/
theorem shows_partView (h : d.nodes.toList.map (·.toContent) = ts.map Content.ofToken) :
    Grammar.Shows (d.partView Part.untraced w files ts) 0
      (Grammar.contentsBy (hushed w files) ts) := by
  rw [Grammar.Shows, Grammar.length_contentsBy, Grammar.contentsBy]
  refine List.ext_getElem (by simp) fun id hid _ => ?_
  have hlt : id < ts.length := by simpa using hid
  have ht : ts[id]? = some ts[id] := List.getElem?_eq_getElem hlt
  simp only [List.getElem_map, List.getElem_range', Nat.zero_add, Nat.one_mul, partView, ht,
    content_of_tokens h ht, untraced_part]

/-- Every node but a text is left as it is. -/
theorem partView_of_not_isText
    (h : d.nodes.toList.map (·.toContent) = ts.map Content.ofToken) (id : NodeId)
    (hid : (d.node id).isText = false) :
    d.partView Part.untraced w files ts id = some (d.node id).toContent := by
  unfold partView
  split
  · next t ht =>
    have hcontent := content_of_tokens h ht
    have hkind : t.kind ≠ .text := by
      rintro hk
      rw [hcontent] at hid
      simp [Content.isText, Content.ofToken, hk] at hid
    rw [hcontent, untraced_part, (thins_hushed w files).keeps t hkind]
    rfl
  · rfl

end Document

namespace Compile

open Document PromptOutline.Embedding Grammar

variable {w w' : Workspace} {width : UInt64} {files : List Location}

/-- The tokens that the nodes of a run's document are made from. -/
def nodeTokens (w : Workspace) (width : UInt64) (s : Stream) : List Token :=
  (Event.tokens (s.run w width).1).filter isNode

/-- The nodes of a document that was read hold what the tokens of the run do. -/
theorem contents_of_readStream {s : Stream} {d : Document} (hs : s.ending.kind = .endOfFile)
    (h : readStream w width s = .ok d) :
    d.nodes.toList.map (·.toContent) = (nodeTokens w width s).map Content.ofToken := by
  obtain ⟨closing, forest, hclosing, hdoc, rfl⟩ := derivation_of_readStream hs h
  rw [hdoc.contents, filter_isNode_closing hclosing, nodeTokens]

/-- Without embedded contents, the tokens of a document still are one. -/
theorem isDocument_hushed (w : Workspace) (files : List Location) {ts closing : List Token}
    {forest : List Tree} (hclosing : ∀ t ∈ closing, t.kind = .outdent)
    (hdoc : IsDocument (ts ++ closing) forest) :
    IsDocument (ts.filterMap (hushed w files) ++ closing)
      (Tree.viewedAll ((ofForest forest).partView Part.untraced w files (ts.filter isNode)) 0
        forest) := by
  have hcontents := hdoc.contents
  rw [filter_isNode_closing hclosing] at hcontents
  have hthinned := hdoc.thinned (thins_hushed w files)
    (by rw [filter_isNode_closing hclosing]; exact shows_partView hcontents)
  have hkeep : closing.filterMap (hushed w files) = closing := by
    have hsome : ∀ t ∈ closing, hushed w files t = some t := fun t ht =>
      (thins_hushed w files).keeps t (by simp [hclosing t ht])
    rw [List.filterMap_congr hsome, List.filterMap_some]
  rwa [List.filterMap_append, hkeep] at hthinned

/-- Where the tokens vary, there is still a document. -/
theorem exists_readStream {s s' : Stream}
    (hruns : Stream.VariedRuns (hushed w files) (hushed w' files) (s.run w width) (s'.run w' width))
    (hs : s.ending.kind = .endOfFile) (hs' : s'.ending.kind = .endOfFile) {d : Document}
    (h : readStream w width s = .ok d) : ∃ d', readStream w' width s' = .ok d' := by
  obtain ⟨closing, forest, hclosing, hdoc, -⟩ := derivation_of_readStream hs h
  obtain ⟨htokens, ending, hfinished⟩ := Builder.tokens_of_build h
  -- the tokens without contents are the same on both sides, and contents only add texts to them
  have hhushed := isDocument_hushed w files hclosing hdoc
  rw [hruns.events.filterMap_eq] at hhushed
  have hpadded := (hruns.events.symm.padded (thins_hushed w' files)).append (Padded.refl closing)
  obtain ⟨forest', hdoc'⟩ := hhushed.padded hpadded
  obtain ⟨ending', hfinished'⟩ : ∃ ending', (s'.run w' width).2 = .finished ending' := by
    have houtcome := hruns.outcome
    rw [hfinished] at houtcome
    generalize (s'.run w' width).2 = outcome at houtcome ⊢
    cases houtcome
    exact ⟨_, rfl⟩
  refine ⟨.ofForest forest', ?_⟩
  have hbuild := Builder.build_of_isDocument hclosing hdoc'
    (Stream.kind_of_ending s' hs' hfinished')
  rwa [← hruns.events.tokens_eq htokens, ← hfinished'] at hbuild

/-- What is left of the sections of a document without embedded contents is the document of the
tokens without them. -/
theorem exists_sectionView (files : List Location) {s : Stream} {d : Document}
    (hs : s.ending.kind = .endOfFile) (h : readStream w width s = .ok d) :
    ∃ g : Document,
      (∀ r, (d.root? r).map (d.shown (d.partView Part.untraced w files (nodeTokens w width s))) =
        (g.sectionTree? r).map some) ∧
      Builder.build (((Event.tokens (s.run w width).1).filterMap (hushed w files)).map .token)
        (.finished (Token.endOfFile "" 0)) = .ok g := by
  have hcontents := contents_of_readStream hs h
  obtain ⟨closing, forest, hclosing, hdoc, rfl⟩ := derivation_of_readStream hs h
  have hhushed := isDocument_hushed w files hclosing hdoc
  refine ⟨_, fun r => ?_, Builder.build_of_isDocument hclosing hhushed rfl⟩
  rw [sectionTree?_ofForest, shown_root? hdoc.isBlock (partView_of_not_isText hcontents)]
  rfl

/-- The locations that the outlines of a reading are looked up at: that of the entry, and those of
all includes. -/
def outlines (w : Workspace) (width : UInt64) (searchPaths : List String) (entry : String) :
    List Location :=
  (Sources.lookup? { searchPaths } w entry).toList ++
    match Origin.stream w width searchPaths (.file entry) with
    | .ok s => s.lookups w width
    | .error _ => []

/-- The tokens that the nodes of an entry's document are made from, one for each node. -/
def madeFrom (w : Workspace) (width : UInt64) (searchPaths : List String) (entry : String) :
    List Token :=
  match Origin.stream w width searchPaths (.file entry) with
  | .ok s => nodeTokens w width s
  | .error _ => []

/-- What is left of a section without the contents of files that are embedded from some
locations. -/
def sectionView (left : Part → Content → Option Content) (w : Workspace) (files : List Location)
    (ts : List Token) (d : Document) (s : Section) : Option (Option Tree) :=
  (d.root? s).map (d.shown (d.partView left w files ts))

/-- Reading looks at no embedded contents. On workspaces that differ only in the contents of files
that are not read as outlines, reading succeeds on both or on neither; and the documents are the
same once the nodes of the lines of these files are left out, up to the line numbers of the fences
behind these lines. -/
theorem embedded_inert {searchPaths : List String} {entry : String} (h : w.SameBut files w')
    (hfiles : ∀ l ∈ files, l ∉ outlines w width searchPaths entry) :
    ((∃ d, parseFile w width searchPaths entry = .ok d) ↔
        ∃ d, parseFile w' width searchPaths entry = .ok d) ∧
      ∀ d d', parseFile w width searchPaths entry = .ok d →
        parseFile w' width searchPaths entry = .ok d' →
        (d.nodes.toList.map (·.toContent) =
            (madeFrom w width searchPaths entry).map Content.ofToken ∧
          d'.nodes.toList.map (·.toContent) =
            (madeFrom w' width searchPaths entry).map Content.ofToken) ∧
          ∀ s, sectionView Part.untraced w files (madeFrom w width searchPaths entry) d s =
            sectionView Part.untraced w' files (madeFrom w' width searchPaths entry) d' s := by
  have hload : Sources.load { searchPaths } w entry = Sources.load { searchPaths } w' entry := by
    refine h.load_eq fun l hl hm => hfiles l hm ?_
    exact List.mem_append_left _ (Option.mem_toList.mpr hl)
  rcases hresult : Sources.load { searchPaths } w entry with ⟨sources, fault | file⟩
  · have hfails (v : Workspace)
        (hv : Sources.load { searchPaths } v entry = (sources, .error fault)) (d : Document) :
        parseFile v width searchPaths entry ≠ .ok d := by
      simp [parseFile, hv]
    have hw := hfails w hresult
    have hw' := hfails w' (hload ▸ hresult)
    refine ⟨⟨?_, ?_⟩, fun d _ hd => absurd hd (hw d)⟩
    · rintro ⟨d, hd⟩
      exact absurd hd (hw d)
    · rintro ⟨d, hd⟩
      exact absurd hd (hw' d)
  · let s : Stream := { sources, opened := [Outline.tokens width file.name file.contents] }
    have hstream (v : Workspace)
        (hv : Sources.load { searchPaths } v entry = (sources, .ok file)) :
        Origin.stream v width searchPaths (.file entry) = .ok s ∧
          parseFile v width searchPaths entry = readStream v width s := by
      simp [Origin.stream, parseFile, hv, s]
    obtain ⟨hs, hparse⟩ := hstream w hresult
    obtain ⟨hs', hparse'⟩ := hstream w' (hload ▸ hresult)
    simp only [outlines, hs] at hfiles
    have hruns : Stream.VariedRuns (hushed w files) (hushed w' files) (s.run w width)
        (s.run w' width) := by
      refine Stream.variedRuns h sources _ _ _ ?_ fun l hl hm =>
        hfiles l hm (List.mem_append_right _ hl)
      intro ts hts t ht l hl hm
      rw [List.mem_singleton.mp hts] at ht
      rw [Outline.fileName_of_mem_tokens t ht, Sources.locate_of_load hresult] at hl
      cases hl
      exact hfiles _ hm (List.mem_append_left _
        (Option.mem_toList.mpr (Sources.load_cases hresult).1))
    simp only [hparse, hparse', madeFrom, hs, hs']
    refine ⟨⟨?_, ?_⟩, fun d d' hd hd' => ⟨?_, fun r => ?_⟩⟩
    · rintro ⟨d, hd⟩
      exact exists_readStream hruns rfl rfl hd
    · rintro ⟨d, hd⟩
      exact exists_readStream hruns.symm rfl rfl hd
    · exact ⟨contents_of_readStream rfl hd, contents_of_readStream rfl hd'⟩
    · obtain ⟨g, hg, hbuild⟩ := exists_sectionView files rfl hd
      obtain ⟨g', hg', hbuild'⟩ := exists_sectionView files rfl hd'
      rw [hruns.events.filterMap_eq, hbuild'] at hbuild
      cases hbuild
      exact (hg r).trans (hg' r).symm

/-! ### A file that changes -/

private theorem sameBut_notes (notes notes' : String) :
    (notesWorkspace notes).SameBut [["notes.md"]] (notesWorkspace notes') where
  here := rfl
  locations := rfl
  entry l := by
    by_cases hl : l = ["notes.md"]
    · subst hl
      exact .inr ⟨List.mem_singleton_self _, _, _, rfl, rfl⟩
    · simp only [notesWorkspace, FileTree.get?, List.lookup_cons, beq_false_of_ne hl, true_or]

private theorem stream_notes (notes : String) :
    Origin.stream (notesWorkspace notes) 4 [] (.file "main.m6r") = .ok (notesPoint notes).start :=
  (notesPoint notes).starts

/-- The file is embedded, and not read as an outline. -/
theorem notMem_outlines_notes {notes : String}
    (h : Stream.lookupsWithin? (notesWorkspace notes) 4 24 (notesPoint notes).start = some []) :
    ∀ l ∈ [["notes.md"]], l ∉ outlines (notesWorkspace notes) 4 [] "main.m6r" := by
  have hlookup : Sources.lookup? {} (notesWorkspace notes) "main.m6r" = some ["main.m6r"] := rfl
  simp only [outlines, hlookup, stream_notes, Stream.lookups_of_within h]
  decide

/-- The action without the lines of the file: its heading and its fences. -/
def unlinedNotes (closing : Nat) : List (Nat × Content) :=
  [(0, ⟨.action, "", 1, 1, .line⟩), (1, ⟨.text, "File: notes.md", 1, 1, .line⟩),
    (1, ⟨.text, "\x60\x60\x60markdown", 1, 1, .line⟩),
    (1, ⟨.text, "\x60\x60\x60", closing, 1, .line⟩)]

private theorem parseFile_notes {notes : String} {closing : Nat}
    (h : ((Stream.runWithin? (notesWorkspace notes) 4 24 (notesPoint notes).start).bind fun r =>
        (Builder.build r.1 r.2).toOption.bind fun d =>
          ((sectionView Part.unlined (notesWorkspace notes) [["notes.md"]]
            ((Event.tokens r.1).filter isNode) d .action).join.map (Tree.preorder 0))) =
      some (unlinedNotes closing)) :
    ∃ d, parseFile (notesWorkspace notes) 4 [] "main.m6r" = .ok d ∧
      ((sectionView Part.unlined (notesWorkspace notes) [["notes.md"]]
        (madeFrom (notesWorkspace notes) 4 [] "main.m6r") d .action).join.map
          (Tree.preorder 0)) = some (unlinedNotes closing) := by
  obtain ⟨r, hr, hrows⟩ := Option.bind_eq_some_iff.mp h
  obtain ⟨d, hd, hview⟩ := Option.bind_eq_some_iff.mp hrows
  have hrun := Stream.run_of_within hr
  have hbuild : Builder.build r.1 r.2 = .ok d := by
    cases hb : Builder.build r.1 r.2 with
    | error problems => simp [hb, Except.toOption] at hd
    | ok d' => simpa [hb, Except.toOption] using hd
  refine ⟨d, ?_, ?_⟩
  · have hparse := Origin.parse_eq (notesWorkspace notes) 4 [] (.file "main.m6r")
    rw [stream_notes, Except.bind, readStream, hrun] at hparse
    exact hparse.trans hbuild
  · rw [madeFrom, stream_notes]
    simpa only [nodeTokens, hrun] using hview

/-- Whatever looks like an outline in the file that is embedded is not read as one. -/
theorem embedded_inert_notes :
    ∃ d d', parseFile (notesWorkspace "a\n") 4 [] "main.m6r" = .ok d ∧
      parseFile (notesWorkspace "Role:\n    Embed: x\n") 4 [] "main.m6r" = .ok d' ∧
      ∀ s, sectionView Part.untraced (notesWorkspace "a\n") [["notes.md"]]
          (madeFrom (notesWorkspace "a\n") 4 [] "main.m6r") d s =
        sectionView Part.untraced (notesWorkspace "Role:\n    Embed: x\n") [["notes.md"]]
          (madeFrom (notesWorkspace "Role:\n    Embed: x\n") 4 [] "main.m6r") d' s := by
  obtain ⟨d, hd, -⟩ := @parseFile_notes "a\n" 2 (by decide +kernel)
  have hinert := embedded_inert (sameBut_notes "a\n" "Role:\n    Embed: x\n")
    (notMem_outlines_notes (by decide +kernel))
  obtain ⟨d', hd'⟩ := hinert.1.mp ⟨d, hd⟩
  exact ⟨d, d', hd, hd', (hinert.2 d d' hd hd').2⟩

/-- The fence behind a file tells how many lines it has. -/
theorem closing_line_varies :
    (notesWorkspace "").SameBut [["notes.md"]] (notesWorkspace "a\n") ∧
      (∀ l ∈ [["notes.md"]], l ∉ outlines (notesWorkspace "") 4 [] "main.m6r") ∧
      ∃ d d', parseFile (notesWorkspace "") 4 [] "main.m6r" = .ok d ∧
        parseFile (notesWorkspace "a\n") 4 [] "main.m6r" = .ok d' ∧
        sectionView Part.unlined (notesWorkspace "") [["notes.md"]]
            (madeFrom (notesWorkspace "") 4 [] "main.m6r") d .action ≠
          sectionView Part.unlined (notesWorkspace "a\n") [["notes.md"]]
            (madeFrom (notesWorkspace "a\n") 4 [] "main.m6r") d' .action := by
  obtain ⟨d, hd, hview⟩ := @parseFile_notes "" 1 (by decide +kernel)
  obtain ⟨d', hd', hview'⟩ := @parseFile_notes "a\n" 2 (by decide +kernel)
  refine ⟨sameBut_notes _ _, notMem_outlines_notes (by decide +kernel), d, d', hd, hd',
    fun heq => ?_⟩
  rw [heq, hview'] at hview
  revert hview
  decide

end Compile

end PromptOutline
