import PromptOutline.Proofs.Contentless
import PromptOutline.Proofs.Positions
import PromptOutline.Proofs.Replays
import PromptOutline.Proofs.Reuse
import PromptOutline.Proofs.Substitution

/-!
# Outlines that differ in comments

Comments leave the tokens of an outline as they are, places aside. So workspaces whose outlines
differ in comments load the same outlines up to places, take the same steps up to places, and give
the same document or the same problems. A file that is embedded is no outline: its lines are shown
as they are, whatever they start with.
-/

namespace PromptOutline

open Outline

/-! ### Workspaces -/

/-- Workspaces that differ only in the comments of the outlines at some locations. -/
structure Workspace.SameButComments (files : List Location) (w w' : Workspace) : Prop
    extends w.SameBut files w' where
  uncommented : ∀ l ∈ files, ∃ source source', w.text? l = some source ∧
    w'.text? l = some source' ∧ uncommented source = uncommented source'

variable {files : List Location} {w w' : Workspace}

/-- A name that leads to a text at a location that is not recorded is loaded with that text. -/
theorem Sources.load_of_lookup? {s : Sources} {name contents : String} {l : Location}
    (hlookup : s.lookup? w name = some l) (hnew : l ∉ s.used) (htext : w.text? l = some contents) :
    ∃ path, s.load w name = (s.adding [l], .ok { name := path, location := l, contents }) := by
  rw [lookup?] at hlookup
  cases hpath : s.resolve w name with
  | error fault =>
    rw [hpath] at hlookup
    cases hlookup
  | ok path =>
    simp only [hpath] at hlookup
    cases hdirectory : w.isDirectory path with
    | true =>
      rw [hdirectory] at hlookup
      cases hlookup
    | false =>
      cases hlocate : w.locate path with
      | error fault =>
        rw [hdirectory, hlocate] at hlookup
        cases hlookup
      | ok k =>
        rw [hdirectory, hlocate] at hlookup
        obtain rfl : k = l := Option.some.inj hlookup
        have hread : w.readText path = .ok contents := by
          unfold Workspace.text? at htext
          split at htext
          · next bytes hget => simp only [Workspace.readText, Workspace.read, hlocate, hget, htext]
          · cases htext
        refine ⟨path, ?_⟩
        simp [load, hpath, hdirectory, hlocate, readOnce, hnew, hread, adding]

/-- A name is loaded the same, or it leads to an outline whose comments differ. -/
theorem Workspace.SameButComments.load_cases (h : w.SameButComments files w') (s : Sources)
    (name : String) :
    s.load w name = s.load w' name ∨
      ∃ r f contents, s.load w name = (r, .ok f) ∧ s.load w' name = (r, .ok { f with contents }) ∧
        Outline.uncommented f.contents = Outline.uncommented contents := by
  by_cases hfile : ∃ l ∈ files, s.lookup? w name = some l
  · obtain ⟨l, hl, hlookup⟩ := hfile
    by_cases hused : l ∈ s.used
    · refine .inl ?_
      rw [Sources.load_of_used hlookup hused,
        Sources.load_of_used (h.toSameBut.lookup?_eq s name ▸ hlookup) hused]
    · obtain ⟨source, source', htext, htext', huncommented⟩ := h.uncommented l hl
      obtain ⟨path, hload⟩ := Sources.load_of_lookup? hlookup hused htext
      exact .inr ⟨_, _, source', hload, h.toSameBut.load_of_text? hload htext', huncommented⟩
  · exact .inl (h.toSameBut.load_eq fun l hl hm => hfile ⟨l, hm, hl⟩)

/-! ### Steps -/

namespace Stream

variable {width : UInt64} {P : Location → Prop} {s s' s'' : Stream}

private theorem Alike.refl (s : Stream) : s.Alike P s := ⟨.refl _, rfl⟩

private theorem Alike.trans (h : s.Alike P s') (h' : s'.Alike P s'') : s.Alike P s'' where
  sources := ⟨h.sources.searchPaths.trans h'.sources.searchPaths,
    fun l hl => (h.sources.used l hl).trans (h'.sources.used l hl)⟩
  opened := h.opened.trans h'.opened

private theorem Step.Alike.refl (x : Step) : x.Alike P x := by
  cases x with
  | finished => exact .finished
  | failed d => exact .failed rfl
  | next es s => exact .next rfl (.refl s)

private theorem Step.Alike.trans {x y z : Step} (h : x.Alike P y) (h' : y.Alike P z) :
    x.Alike P z := by
  cases h with
  | finished => exact h'
  | failed hd =>
    cases h' with
    | failed hd' => exact .failed (hd.trans hd')
  | next hes hs =>
    cases h' with
    | next hes' hs' => exact .next (hes.trans hes') (hs.trans hs')

/-- A step is the same up to places where comments differ, if it does not embed them. -/
theorem step_alike (h : w.SameButComments files w') (width : UInt64) (s : Stream)
    (hout : ∀ f ∈ s.embeddings w, f.location ∉ files) :
    (s.step w width).Alike P (s.step w' width) := by
  have hmove := move_step w width s
  have hexpand := h.toSameBut.expand_eq s.sources
  generalize s.taking = taken at hmove
  generalize hx : s.step w width = x at hmove
  -- A move that no file is read for is one on the other workspace, too.
  have hsame {taken : List Token} {x : Step} (hmove : Move w' width s taken x) :
      x.Alike P (s.step w' width) := by
    rw [hmove.step_eq]
    exact .refl x
  cases hmove with
  | finished ho => exact hsame (.finished ho)
  | dropped ho => exact hsame (.dropped ho)
  | ended ho ht => exact hsame (.ended ho ht)
  | given ho ht => exact hsame (.given ho ht)
  | bare ho ht hrest => exact hsame (.bare ho ht hrest)
  | @included t name rest outer sources f ho ht hname hload =>
    rcases h.load_cases s.sources name.text with heq | ⟨r, g, contents, hg, hload', hcomments⟩
    · exact hsame (.included ho ht hname (heq ▸ hload))
    · cases hload.symm.trans hg
      have hmove' : Move w' width s _ _ := .included ho ht hname hload'
      rw [hmove'.step_eq]
      have htokens := bare_tokens_of_uncommented width f.name hcomments
      exact .next rfl ⟨.refl _, congrArg (· :: (rest :: outer).map (List.map Token.bare)) htokens⟩
  | notIncluded ho ht hname hload =>
    rcases h.load_cases s.sources _ with heq | ⟨r, g, contents, hg, -⟩
    · exact hsame (.notIncluded ho ht hname (heq ▸ hload))
    · cases hload.symm.trans hg
  | @embedded t pattern rest outer paths fs ho ht hpattern hpaths hne hfiles =>
    have hembeddings : s.embeddings w = fs := by
      simp [embeddings, ho, ht, hpattern, hpaths, hfiles, Except.toOption]
    exact hsame (.embedded ho ht hpattern (hexpand _ ▸ hpaths) hne
      (h.toSameBut.mapM_loadEmbedded_eq hfiles (hembeddings ▸ hout)))
  | notEmbedded ho ht hpattern hpaths hne hfiles =>
    exact hsame (.notEmbedded ho ht hpattern (hexpand _ ▸ hpaths) hne
      (h.toSameBut.mapM_loadEmbedded_error hfiles))
  | unmatched ho ht hpattern hpaths =>
    exact hsame (.unmatched ho ht hpattern (hexpand _ ▸ hpaths))
  | misspelt ho ht hpattern hpaths =>
    exact hsame (.misspelt ho ht hpattern (hexpand _ ▸ hpaths))

/-! ### Runs -/

/-- Whether none of the files that are opened is embedded from one of some locations. -/
def NoneEmbedded (w : Workspace) (files : List Location) (opened : List ReadFile) : Prop :=
  ∀ name text, .embedded name text ∈ opened → ∀ l, w.locate name = .ok l → l ∉ files

private theorem locate_of_mem_embeddings {f : SourceFile} (h : f ∈ s.embeddings w) :
    w.locate f.name = .ok f.location := by
  unfold embeddings at h
  split at h
  · split at h
    · split at h
      · next paths _ =>
        cases hfiles : paths.mapM (Sources.loadEmbedded w) with
        | error fault => simp [hfiles, Except.toOption] at h
        | ok fs =>
          have hmem : f ∈ fs := by simpa [hfiles, Except.toOption] using h
          obtain ⟨path, -, hload⟩ := mem_of_mem_mapM hfiles f hmem
          obtain ⟨rfl, hlocate⟩ := Sources.locate_of_loadEmbedded hload
          exact hlocate
      · cases h
    · cases h
  · cases h

private theorem notMem_of_noneEmbedded (h : NoneEmbedded w files (s.openings w width)) :
    ∀ f ∈ s.embeddings w, f.location ∉ files := by
  intro f hf
  have hopening : .embedded f.name f.contents ∈ s.openings w width := by
    rw [openings, opening]
    exact List.mem_append_left _ (List.mem_append_right _ (List.mem_map_of_mem hf))
  exact h _ _ hopening _ (locate_of_mem_embeddings hf)

/-- Runs are the same up to places where comments differ, if these are not embedded. -/
theorem sameRun_of_comments (h : w.SameButComments files w') (hs : s.Alike (fun _ => True) s')
    (hout : NoneEmbedded w files (s.openings w width)) :
    SameRun (s.run w width) (s'.run w' width) := by
  induction s using step_induction w width generalizing s' with
  | next s ih =>
    have hstep := (step_alike h width s (notMem_of_noneEmbedded hout)).trans
      (hs.step w' width fun _ _ => trivial)
    generalize hx : s.step w width = x at hstep
    generalize hx' : s'.step w' width = x' at hstep
    cases hstep with
    | finished =>
      rw [run_of_finished hx, run_of_finished hx']
      exact ⟨rfl, trivial⟩
    | failed hd =>
      rw [run_of_failed hx, run_of_failed hx']
      exact ⟨rfl, hd⟩
    | @next es es' t t' hes ht =>
      have hrest : SameRun (t.run w width) (t'.run w' width) := by
        refine ih es t hx ht fun name text hmem => hout name text ?_
        rw [openings_of_next hx]
        exact List.mem_append_right _ hmem
      rw [run_of_next hx, run_of_next hx']
      exact ⟨by simp only [List.map_append, hes, hrest.1], hrest.2⟩

end Stream

/-! ### Readings -/

/-- Origins that differ only in comments. -/
inductive Origin.SameButComments : Origin → Origin → Prop where
  | text {fileName source source' : String} (h : uncommented source = uncommented source') :
      SameButComments (.text fileName source) (.text fileName source')
  | file (name : String) : SameButComments (.file name) (.file name)

open Compile

/-- Outlines that are opened with the same comments left out are read the same up to places. -/
theorem bareResult_of_comments {width : UInt64} (h : w.SameButComments files w')
    {s : Sources} {fileName source source' : String}
    (hsource : uncommented source = uncommented source')
    (hout : Stream.NoneEmbedded w files (Stream.openings w width
      { sources := s, opened := [tokens width fileName source] })) :
    bareResult (readStream w width { sources := s, opened := [tokens width fileName source] }) =
      bareResult (readStream w' width
        { sources := s, opened := [tokens width fileName source'] }) := by
  refine bareResult_readStream (Stream.sameRun_of_comments h ⟨.refl s, ?_⟩ hout)
  rw [List.map_singleton, List.map_singleton, bare_tokens_of_uncommented width fileName hsource]

/-- Readings of outlines that differ in comments give documents, or problems, that differ in
places. -/
theorem Origin.bareResult_read {options : ReadOptions} {origin origin' : Origin}
    (h : w.SameButComments files w') (horigin : origin.SameButComments origin')
    (hout : Stream.NoneEmbedded w files
      (origin.files w options.width options.searchPaths)) :
    bareResult (origin.read w options) = bareResult (origin'.read w' options) := by
  have hopenings {name text : String} {rs : List ReadFile}
      (hrs : Stream.NoneEmbedded w files (.outline name text :: rs)) :
      Stream.NoneEmbedded w files rs :=
    fun name text hmem => hrs name text (List.mem_cons_of_mem _ hmem)
  rw [read_eq, read_eq, bareResult_finish, bareResult_finish]
  congr 1
  cases horigin with
  | text hsource => exact bareResult_of_comments h hsource (hopenings hout)
  | file name =>
    simp only [parse, parseFile]
    rcases h.load_cases { searchPaths := options.searchPaths } name with
      heq | ⟨r, f, contents, hload, hload', hsource⟩
    · rw [← heq]
      rcases hload : Sources.load { searchPaths := options.searchPaths } w name with ⟨r, fault | f⟩
      · rfl
      · simp only [Origin.files, hload] at hout
        exact bareResult_of_comments h rfl (hopenings hout)
    · simp only [Origin.files, hload] at hout
      simp only [hload, hload']
      exact bareResult_of_comments h hsource (hopenings hout)

/-- Lines without content do not influence other lines. Without a comment, a blank line or a line
that is rejected, an outline has the same tokens but for those of the line, one line further up
behind it. And comments change nothing but places: outlines that differ in them, the one that is
read as well as those that it includes, give the same document or the same problems. -/
theorem contentless_lines :
    (∀ (width : UInt64) (fileName source : String) (i : Nat),
      Contentless width fileName source i →
      tokens width fileName (String.ofList (Text.withoutLine i source.toList)) =
        ((tokens width fileName source).filter fun t => t.line ≠ i + 1).map
          (Token.lowered (i + 1))) ∧
    ∀ (w w' : Workspace) (files : List Location) (options : ReadOptions) (origin origin' : Origin),
      w.SameButComments files w' → origin.SameButComments origin' →
      Stream.NoneEmbedded w files (origin.files w options.width options.searchPaths) →
      bareResult (origin.read w options) = bareResult (origin'.read w' options) := by
  refine ⟨fun width fileName source i h => ?_,
    fun w w' files options origin origin' h ho hout => ?_⟩
  · refine tokens_eraseIdx h ?_
    rw [String.toList_ofList, Text.lines_withoutLine]
  · exact Origin.bareResult_read h ho hout

/-! ### Comments in two files -/

/-- An outline with a blank line, a comment and a line that starts with spaces and a tab and is
rejected. -/
def contentlessSample : String := "Action:\n    p\n\n  # c\n  \tq\n    r\n"

/-- An outline that includes another one and embeds a file that starts like a comment. -/
def commentWorkspace (main part : String) : Workspace where
  tree.entries :=
    [(["main.m6r"], .file (Text.Utf8.encode main)), (["part.m6r"], .file (Text.Utf8.encode part)),
      (["note.txt"], .file (Text.Utf8.encode "# n\n"))]

/-- An outline without comments. -/
def plainMain : String := "Role:\n    r\n\n    Embed: note.txt\n    Include: part.m6r\n"

/-- The outline with comments, also in places where a line has another margin. -/
def commentedMain : String :=
  "#\nRole:\n    r\n\n# c\n    Embed: note.txt\n  # d\n    Include: part.m6r\n"

private theorem sameButComments_outlines :
    (commentWorkspace plainMain "a\nb\n").SameButComments [["main.m6r"], ["part.m6r"]]
      (commentWorkspace commentedMain "a\n#e\nb\n") where
  here := rfl
  locations := rfl
  entry l := by
    by_cases hmain : l = ["main.m6r"]
    · subst hmain
      exact .inr ⟨by decide, _, _, rfl, rfl⟩
    by_cases hpart : l = ["part.m6r"]
    · subst hpart
      exact .inr ⟨by decide, _, _, rfl, rfl⟩
    · refine .inl ?_
      simp only [commentWorkspace, FileTree.get?, List.lookup_cons, beq_false_of_ne hmain,
        beq_false_of_ne hpart]
  uncommented l hl := by
    simp only [List.mem_cons, List.not_mem_nil, or_false] at hl
    rcases hl with rfl | rfl
    · exact ⟨plainMain, commentedMain, by decide +kernel, by decide +kernel, by decide +kernel⟩
    · exact ⟨"a\nb\n", "a\n#e\nb\n", by decide +kernel, by decide +kernel, by decide +kernel⟩

private theorem noneEmbedded_outlines :
    Stream.NoneEmbedded (commentWorkspace plainMain "a\nb\n") [["main.m6r"], ["part.m6r"]]
      (Origin.files (commentWorkspace plainMain "a\nb\n") 4 [] (.file "main.m6r")) := by
  have hload : Sources.load {} (commentWorkspace plainMain "a\nb\n") "main.m6r" =
      ({ used := [["main.m6r"]] }, .ok ⟨"main.m6r", ["main.m6r"], plainMain⟩) := by
    decide +kernel
  have hopenings : Stream.openingsWithin? (commentWorkspace plainMain "a\nb\n") 4 40
      { sources := { used := [["main.m6r"]] }, opened := [tokens 4 "main.m6r" plainMain] } =
      some [.embedded "note.txt" "# n\n", .outline "part.m6r" "a\nb\n"] := by
    decide +kernel
  intro name text hmem l hl
  simp only [Origin.files, hload, Stream.openings_of_within hopenings, List.mem_cons, reduceCtorEq,
    List.not_mem_nil, or_false, false_or, ReadFile.embedded.injEq] at hmem
  obtain ⟨rfl, rfl⟩ := hmem
  have hlocate : (commentWorkspace plainMain "a\nb\n").locate "note.txt" = .ok ["note.txt"] := by
    decide +kernel
  cases hl.symm.trans hlocate
  decide

/-- The blank line, the comment and the rejected line of the sample can be left out, and the two
outlines give the same document with their comments and without. -/
theorem contentless_lines_sample :
    (∀ i ∈ [2, 3, 4], Contentless 4 "plan" contentlessSample i ∧
      tokens 4 "plan" (String.ofList (Text.withoutLine i contentlessSample.toList)) =
        ((tokens 4 "plan" contentlessSample).filter fun t => t.line ≠ i + 1).map
          (Token.lowered (i + 1))) ∧
      (∃ d, Origin.read (commentWorkspace plainMain "a\nb\n") {} (.file "main.m6r") = .ok d) ∧
      bareResult (Origin.read (commentWorkspace plainMain "a\nb\n") {} (.file "main.m6r")) =
        bareResult (Origin.read (commentWorkspace commentedMain "a\n#e\nb\n") {}
          (.file "main.m6r")) := by
  have hcontentless : ∀ i ∈ [2, 3, 4], Contentless 4 "plan" contentlessSample i := by
    simp only [List.mem_cons, List.not_mem_nil, or_false]
    rintro i (rfl | rfl | rfl)
    · exact ⟨[], by decide +kernel, .inl rfl⟩
    · exact ⟨"  # c".toList, by decide +kernel, .inr (.inl (by decide +kernel))⟩
    · exact ⟨"  \tq".toList, by decide +kernel, .inr (.inr (by decide +kernel))⟩
  refine ⟨fun i hi => ⟨hcontentless i hi, contentless_lines.1 4 "plan" _ i (hcontentless i hi)⟩,
    ?_, contentless_lines.2 _ _ _ {} _ _ sameButComments_outlines (.file "main.m6r")
      noneEmbedded_outlines⟩
  have hended : (Round.after (commentWorkspace plainMain "a\nb\n") 4 40
      (Origin.start (commentWorkspace plainMain "a\nb\n") 4 []
        (.file "main.m6r"))).document?.isSome = true := by
    decide +kernel
  obtain ⟨raw, hraw⟩ := Option.isSome_iff_exists.mp hended
  refine ⟨finish {} raw, ?_⟩
  rw [Origin.read_eq]
  exact congrArg (Except.map (finish {})) (Origin.parse_of_ended (Round.ended_of_document? hraw))

end PromptOutline
