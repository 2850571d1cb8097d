import PromptOutline.Proofs.OpenedWalk
import PromptOutline.Proofs.Positions

/-!
# Readings past a file opened for writing

A reading that opens other files only takes the same steps as before the file was opened: its names
lead to the same outlines and its patterns stand for the same files.
-/

namespace PromptOutline

namespace Stream

variable {w : Workspace} {width : UInt64}

/-- A step records no location but those of the outlines that it opens. -/
theorem notMem_used_of_step {l : Location} {s s' : Stream} {es : List Event}
    (hstep : s.step w width = .next es s') (hused : l ∉ s.sources.used)
    (hnew : ∀ f ∈ s.opening w, w.locate f.name ≠ .ok l) : l ∉ s'.sources.used := by
  have hmove := move_step w width s
  generalize s.taking = taken at hmove
  rw [hstep] at hmove
  cases hmove with
  | @included t name rest outer sources f ho ht hname hload =>
    have hopening : ReadFile.outline f.name f.contents ∈ s.opening w := by
      simp [opening, outline?, ho, ht, hname, hload, Except.toOption]
    have hne : l ≠ f.location := fun hl =>
      hnew _ hopening (hl ▸ Sources.locate_of_load hload)
    rw [show sources.used = _ from (Sources.load_eq_ok hload).1, List.mem_append,
      List.mem_singleton, not_or]
    exact ⟨hused, hne⟩
  | _ => exact hused

end Stream

namespace Sources

variable {w : Workspace}

private theorem resolve_eq_ok {s : Sources} {name path : String} (h : s.resolve w name = .ok path) :
    (s.candidates name).find? w.exists? = some path := by
  unfold resolve at h
  split at h
  · next hfind =>
    cases h
    exact hfind
  · cases h

/-- Embedded files bear the names that they were found under. -/
theorem names_of_mapM_loadEmbedded {paths : List String} {files : List SourceFile}
    (h : paths.mapM (loadEmbedded w) = .ok files) : files.map (·.name) = paths := by
  have hsides := mapM_eq_ok_iff.mp h
  clear h
  induction hsides with
  | nil => rfl
  | cons hf _ ih => rw [List.map_cons, ih, (locate_of_loadEmbedded hf).1]

/-- A file that can be read can be embedded. -/
theorem loadEmbedded_of_file {path : String} {l : Location} {bytes : List UInt8}
    (hpath : w.locate path = .ok l) (hfile : w.tree.get? l = some (.file bytes)) :
    ∃ f, loadEmbedded w path = .ok f := by
  have hdirectory : w.isDirectory path = false := by
    simp [Workspace.isDirectory, Workspace.entry?, hpath, hfile]
  refine ⟨{ name := path, location := l, contents := Text.Utf8.lossy bytes }, ?_⟩
  simp [loadEmbedded, hdirectory, hpath, Workspace.read, hfile]

private theorem isFile_of_firstMatch {patterns : List (List Char)} {paths : List String}
    (h : firstMatch w patterns = .ok paths) : ∀ path ∈ paths, w.isFile path = true := by
  induction patterns with
  | nil =>
    cases h
    simp
  | cons pattern rest ih =>
    rw [firstMatch] at h
    split at h
    · cases h
    · exact ih h
    · next hexpand =>
      cases h
      exact Walk.isFile_of_expand hexpand

/-- A pattern stands for files. -/
theorem isFile_of_expand {s : Sources} {pattern : String} {paths : List String}
    (h : s.expand w pattern = .ok paths) : ∀ path ∈ paths, w.isFile path = true := by
  unfold expand at h
  split at h
  · cases h
  · next hfirst =>
    cases h
    exact isFile_of_firstMatch hfirst

end Sources

namespace Workspace.Emptied

variable {l : Location} {w w' : Workspace} (h : Emptied l w w')
include h

private theorem resolve_eq (s : Sources) {name : String}
    (hnew : ∀ path, s.resolve w' name = .ok path → w'.locate path ≠ .ok l) :
    s.resolve w' name = s.resolve w name := by
  have hfind : (s.candidates name).find? w'.exists? = (s.candidates name).find? w.exists? := by
    cases hfound : (s.candidates name).find? w'.exists? with
    | none =>
      rw [List.find?_eq_none] at hfound
      exact (List.find?_eq_none.mpr fun path hpath hexists =>
        hfound path hpath (h.exists?_of_exists? hexists)).symm
    | some path =>
      have hpath : w'.locate path ≠ .ok l := hnew path (by rw [Sources.resolve, hfound])
      obtain ⟨hexists, before, after, hcandidates, hbefore⟩ :=
        List.find?_eq_some_iff_append.mp hfound
      refine (List.find?_eq_some_iff_append.mpr ⟨?_, before, after, hcandidates, ?_⟩).symm
      · rwa [exists?, ← h.entry?_eq hpath]
      · intro p hp
        have hmissing := hbefore p hp
        rw [Bool.not_eq_true'] at hmissing ⊢
        exact Bool.eq_false_iff.mpr fun hexists' => by
          rw [h.exists?_of_exists? hexists'] at hmissing
          cases hmissing
  rw [Sources.resolve, Sources.resolve, hfind]

/-- An outline elsewhere is loaded as before. -/
theorem load_eq {s : Sources} (hused : l ∉ s.used) {name : String}
    (hnew : ∀ s' f, s.load w' name = (s', .ok f) → w'.locate f.name ≠ .ok l) :
    s.load w' name = s.load w name := by
  have hpath : ∀ path, s.resolve w' name = .ok path → w'.locate path ≠ .ok l := by
    intro path hresolve hlocate
    have hdirectory : w'.isDirectory path = false := by
      simp [isDirectory, entry?, hlocate, h.file]
    -- the new file is empty and was not read before, so it would be loaded
    refine hnew { s with used := s.used ++ [l] } { name := path, location := l, contents := "" } ?_
      hlocate
    rw [Sources.load, hresolve]
    have htext : Text.Utf8.text? [] = some "" := by
      rw [Text.Utf8.text?, Text.Utf8.decode]
      rfl
    simp [hdirectory, hlocate, Sources.readOnce, hused, readText, read, h.file, htext]
  rw [Sources.load, Sources.load, h.resolve_eq s hpath]
  rw [h.resolve_eq s hpath] at hpath
  cases hresolve : s.resolve w name with
  | error fault => rfl
  | ok path =>
    simp only [h.isDirectory_eq]
    have hexists : w.exists? path = true := List.find?_some (Sources.resolve_eq_ok hresolve)
    cases hlocate : w.locate path with
    | error fault => simp [exists?, entry?, hlocate] at hexists
    | ok k =>
      have hlocate' := h.locate_of_ok hlocate
      have hk : k ≠ l := fun hkl => hpath path hresolve (hkl ▸ hlocate')
      rw [hlocate']
      simp only [Sources.readOnce, readText, h.read_eq hlocate' hk]

private theorem loadEmbedded_eq {path : String} (hfile : w'.isFile path = true)
    (hpath : w'.locate path ≠ .ok l) :
    Sources.loadEmbedded w' path = Sources.loadEmbedded w path := by
  cases hlocate : w'.locate path with
  | error fault => simp [isFile, entry?, hlocate] at hfile
  | ok k =>
    have hk : k ≠ l := fun hkl => hpath (hkl ▸ hlocate)
    rw [Sources.loadEmbedded, Sources.loadEmbedded, h.isDirectory_eq, h.read_eq hlocate hk, hlocate,
      h.locate_of_ne hlocate hk]

private theorem mapM_loadEmbedded_eq {paths : List String}
    (hfiles : ∀ path ∈ paths, w'.isFile path = true)
    (hpaths : ∀ path ∈ paths, w'.locate path ≠ .ok l) :
    paths.mapM (Sources.loadEmbedded w') = paths.mapM (Sources.loadEmbedded w) := by
  induction paths with
  | nil => rfl
  | cons path paths ih =>
    rw [List.mapM_cons, List.mapM_cons,
      h.loadEmbedded_eq (hfiles path List.mem_cons_self) (hpaths path List.mem_cons_self),
      ih (fun p hp => hfiles p (List.mem_cons_of_mem path hp))
        fun p hp => hpaths p (List.mem_cons_of_mem path hp)]

/-- A file in place of the new one could be embedded as well. -/
theorem loadEmbedded_of_isFile {path : String} (hfile : w.isFile path = true)
    (hpath : w'.locate path = .ok l) : ∃ f, Sources.loadEmbedded w path = .ok f := by
  obtain ⟨k, entry, hk, hentry, -⟩ := isFile_iff.mp hfile
  obtain rfl : l = k := by simpa [hpath] using h.locate_of_ok hk
  rcases h.before with hnone | ⟨bytes, hbytes⟩
  · rw [hnone] at hentry
    cases hentry
  · exact Sources.loadEmbedded_of_file hk hbytes

/-- Where embedding fails, the first file that cannot be embedded is the first one that could not be
embedded before. -/
theorem mapM_loadEmbedded_error {paths : List String} {fault : LoadFault}
    (hfiles : ∀ path ∈ paths, w'.isFile path = true)
    (hfault : paths.mapM (Sources.loadEmbedded w') = .error fault) :
    ∃ path ∈ paths, w.isFile path = true ∧
      (paths.filter w.isFile).mapM (Sources.loadEmbedded w) = .error fault := by
  obtain ⟨before, path, after, rfl, hbefore, hpath⟩ := mapM_eq_error_iff.mp hfault
  have hother : w'.locate path ≠ .ok l := fun hl => by
    obtain ⟨f, hf⟩ := Sources.loadEmbedded_of_file hl h.file
    rw [hf] at hpath
    cases hpath
  have hfile : w.isFile path = true :=
    (h.isFile_eq hother).symm.trans (hfiles path (by simp))
  refine ⟨path, by simp, hfile, mapM_eq_error_iff.mpr
    ⟨before.filter w.isFile, path, after.filter w.isFile, ?_, fun p hp => ?_, ?_⟩⟩
  · rw [List.filter_append, List.filter_cons_of_pos hfile]
  · obtain ⟨hp, hpfile⟩ := List.mem_filter.mp hp
    by_cases hl : w'.locate p = .ok l
    · exact h.loadEmbedded_of_isFile hpfile hl
    · rw [← h.loadEmbedded_eq (hfiles p (by simp [hp])) hl]
      exact hbefore p hp
  · rw [← h.loadEmbedded_eq (hfiles path (by simp)) hother, hpath]

/-- Where embedding fails, it failed before, and for the same file. -/
theorem embed_error {s : Sources} {pattern : String} {found : List String} {fault : LoadFault}
    (hexpand : s.expand w' pattern = .ok found)
    (hfault : found.mapM (Sources.loadEmbedded w') = .error fault) :
    ∃ files, s.expand w pattern = .ok files ∧ files ≠ [] ∧
      files.mapM (Sources.loadEmbedded w) = .error fault := by
  obtain ⟨path, hmem, hfile, hsame⟩ :=
    h.mapM_loadEmbedded_error (Sources.isFile_of_expand hexpand) hfault
  exact ⟨_, h.expand_filter hexpand hmem hfile,
    List.ne_nil_of_mem (List.mem_filter.mpr ⟨hmem, hfile⟩), hsame⟩

/-- The next step is the same as before, if it opens other files only. -/
theorem step_eq {width : UInt64} {s : Stream} (hused : l ∉ s.sources.used)
    (hnew : ∀ f ∈ s.opening w', w'.locate f.name ≠ .ok l) :
    s.step w' width = s.step w width := by
  have hload {t name : Token} {rest : List Token} {outer : List (List Token)}
      (ho : s.opened = (t :: name :: rest) :: outer) (ht : t.kind = .includeFile)
      (hname : name.kind = .keywordText) :
      s.sources.load w' name.text = s.sources.load w name.text := by
    refine h.load_eq hused fun s' f hf => hnew (.outline f.name f.contents) ?_
    simp [Stream.opening, Stream.outline?, ho, ht, hname, hf, Except.toOption]
  have hfound {t pattern : Token} {rest : List Token} {outer : List (List Token)}
      (ho : s.opened = (t :: pattern :: rest) :: outer) (ht : t.kind = .embedFiles)
      (hpattern : pattern.kind = .keywordText) {found : List String} {files : List SourceFile}
      (hexpand : s.sources.expand w' pattern.text = .ok found)
      (hfiles : found.mapM (Sources.loadEmbedded w') = .ok files) :
      ∀ path ∈ found, w'.locate path ≠ .ok l := by
    intro path hpath
    rw [← Sources.names_of_mapM_loadEmbedded hfiles] at hpath
    obtain ⟨f, hf, rfl⟩ := List.mem_map.mp hpath
    refine hnew (.embedded f.name f.contents)
      (List.mem_append_right _ (List.mem_map.mpr ⟨f, ?_, rfl⟩))
    simpa [Stream.embeddings, ho, ht, hpattern, hexpand, hfiles, Except.toOption] using hf
  have hmove := Stream.move_step w' width s
  generalize s.taking = taken at hmove
  generalize s.step w' width = x at hmove
  symm
  cases hmove with
  | finished ho => exact (Stream.Move.finished ho).step_eq
  | dropped ho => exact (Stream.Move.dropped ho).step_eq
  | ended ho ht => exact (Stream.Move.ended ho ht).step_eq
  | given ho ht => exact (Stream.Move.given ho ht).step_eq
  | bare ho ht hrest => exact (Stream.Move.bare ho ht hrest).step_eq
  | included ho ht hname hloaded =>
    rw [hload ho ht hname] at hloaded
    exact (Stream.Move.included ho ht hname hloaded).step_eq
  | notIncluded ho ht hname hloaded =>
    rw [hload ho ht hname] at hloaded
    exact (Stream.Move.notIncluded ho ht hname hloaded).step_eq
  | embedded ho ht hpattern hexpand hne hfiles =>
    have hpaths := hfound ho ht hpattern hexpand hfiles
    rw [h.mapM_loadEmbedded_eq (Sources.isFile_of_expand hexpand) hpaths] at hfiles
    have hexpand' := h.expand_eq hexpand fun _ hf => Except.ok.inj hf ▸ hpaths
    exact (Stream.Move.embedded ho ht hpattern hexpand' hne hfiles).step_eq
  | notEmbedded ho ht hpattern hexpand hne hfiles =>
    obtain ⟨files, hexpand', hne', hfault⟩ := h.embed_error hexpand hfiles
    exact (Stream.Move.notEmbedded ho ht hpattern hexpand' hne' hfault).step_eq
  | unmatched ho ht hpattern hexpand =>
    have hexpand' := h.expand_eq hexpand fun _ hf => Except.ok.inj hf ▸ List.forall_mem_nil _
    exact (Stream.Move.unmatched ho ht hpattern hexpand').step_eq
  | misspelt ho ht hpattern hexpand =>
    have hexpand' := h.expand_eq hexpand fun _ hf => by cases hf
    exact (Stream.Move.misspelt ho ht hpattern hexpand').step_eq

/-- A run that opens other files only is the same as before. -/
theorem run_eq {width : UInt64} {s : Stream} (hused : l ∉ s.sources.used)
    (hnew : ∀ f ∈ s.openings w' width, w'.locate f.name ≠ .ok l) :
    s.run w' width = s.run w width := by
  induction s using Stream.step_induction w' width with
  | next s ih =>
    have hopening : ∀ f ∈ s.opening w', w'.locate f.name ≠ .ok l := by
      intro f hf
      apply hnew
      rw [Stream.openings]
      exact List.mem_append_left _ hf
    have hsame : s.step w' width = s.step w width := h.step_eq hused hopening
    cases hstep : s.step w' width with
    | finished =>
      rw [Stream.run_of_finished hstep, Stream.run_of_finished (hsame.symm.trans hstep)]
    | failed d =>
      rw [Stream.run_of_failed hstep, Stream.run_of_failed (hsame.symm.trans hstep)]
    | next es s' =>
      rw [Stream.run_of_next hstep, Stream.run_of_next (hsame.symm.trans hstep),
        ih es s' hstep (Stream.notMem_used_of_step hstep hused hopening) fun f hf => hnew f ?_]
      rw [Stream.openings_of_next hstep]
      exact List.mem_append_right _ hf

/-- An outline is read as before, if that takes other files only. -/
theorem parseFile_eq {width : UInt64} {searchPaths : List String} {entry : String}
    (hnew : ∀ f ∈ (Origin.file entry).files w' width searchPaths, w'.locate f.name ≠ .ok l) :
    Compile.parseFile w' width searchPaths entry = Compile.parseFile w width searchPaths entry := by
  have hload : Sources.load { searchPaths } w' entry = Sources.load { searchPaths } w entry := by
    refine h.load_eq List.not_mem_nil fun s' f hf => hnew (.outline f.name f.contents) ?_
    simp only [Origin.files, hf]
    exact List.mem_cons_self
  simp only [Origin.files] at hnew
  rw [Compile.parseFile, Compile.parseFile, ← hload]
  split
  · rfl
  · next sources f hf =>
    simp only [hf, List.mem_cons, forall_eq_or_imp] at hnew
    have hused : l ∉ sources.used := by
      rw [(Sources.load_eq_ok hf).1, List.nil_append, List.mem_singleton]
      exact fun hl => hnew.1 (hl ▸ Sources.locate_of_load hf)
    rw [Compile.readStream, Compile.readStream, h.run_eq hused hnew.2]

end Workspace.Emptied

end PromptOutline
