import PromptOutline.Proofs.OpenedFile
import PromptOutline.Proofs.Patterns

/-!
# Walks past a file opened for writing

A walk that meets the new file finds one path more than before, and what components of a pattern
stand for below that path is nothing. So a pattern that does not stand for the new file stands for
the same files as before it was opened.
-/

namespace PromptOutline

/-! ### Sorted names with one name more -/

/-- One element more stands among the others, sorted as they were. -/
theorem mergeSort_concat {α : Type} {le : α → α → Bool}
    (trans : ∀ a b c, le a b = true → le b c = true → le a c = true)
    (total : ∀ a b, (le a b || le b a) = true)
    (antisymm : ∀ a b, le a b = true → le b a = true → a = b) (xs : List α) (x : α) :
    ∃ front back, (xs ++ [x]).mergeSort le = front ++ x :: back ∧
      xs.mergeSort le = front ++ back := by
  obtain ⟨front, back, hcons, hxs, -⟩ := List.mergeSort_cons trans total x xs
  refine ⟨front, back, ?_, hxs⟩
  rw [← hcons]
  have hperm : (xs ++ [x]).mergeSort le |>.Perm ((x :: xs).mergeSort le) :=
    (List.mergeSort_perm ..).trans <|
      (List.perm_append_singleton x xs).trans (List.mergeSort_perm ..).symm
  exact List.Perm.eq_of_pairwise (fun a b _ _ => antisymm a b)
    (List.pairwise_mergeSort trans total _) (List.pairwise_mergeSort trans total _) hperm

namespace FileTree

private theorem before_total (as bs : Location) : (before as bs || before bs as) = true := by
  induction as generalizing bs with
  | nil => rfl
  | cons a as ih =>
    cases bs with
    | nil => rfl
    | cons b bs =>
      by_cases hab : a = b
      · subst hab
        simpa [before] using ih bs
      · rw [before, before, if_neg hab, if_neg (Ne.symm hab), Bool.or_eq_true, decide_eq_true_eq,
          decide_eq_true_eq]
        rcases String.le_total a b with hle | hle
        · exact .inl (Std.lt_of_le_of_ne hle hab)
        · exact .inr (Std.lt_of_le_of_ne hle (Ne.symm hab))

private theorem before_antisymm (as bs : Location) (h : before as bs = true)
    (h' : before bs as = true) :
    as = bs := by
  induction as generalizing bs with
  | nil =>
    cases bs with
    | nil => rfl
    | cons b bs => cases h'
  | cons a as ih =>
    cases bs with
    | nil => cases h
    | cons b bs =>
      by_cases hab : a = b
      · subst hab
        rw [before, if_pos rfl] at h h'
        rw [ih bs h h']
      · rw [before, if_neg hab, decide_eq_true_eq] at h
        rw [before, if_neg (Ne.symm hab), decide_eq_true_eq] at h'
        exact absurd h' (String.lt_asymm h)

private theorem before_trans (as bs cs : Location) (h : before as bs = true)
    (h' : before bs cs = true) :
    before as cs = true := by
  induction as generalizing bs cs with
  | nil => rfl
  | cons a as ih =>
    cases bs with
    | nil => cases h
    | cons b bs =>
      cases cs with
      | nil => cases h'
      | cons c cs =>
        rw [before] at h h' ⊢
        by_cases hab : a = b
        · subst hab
          rw [if_pos rfl] at h
          split
          · next hac =>
            rw [if_pos hac] at h'
            exact ih bs cs h h'
          · next hac => rwa [if_neg hac] at h'
        · rw [if_neg hab, decide_eq_true_eq] at h
          by_cases hbc : b = c
          · subst hbc
            rwa [if_neg hab, decide_eq_true_eq]
          · rw [if_neg hbc, decide_eq_true_eq] at h'
            have hac := String.lt_trans h h'
            have hne : a ≠ c := fun he => String.lt_irrefl c (he ▸ hac)
            rwa [if_neg hne, decide_eq_true_eq]

/-- A visible name in a directory is the last one of its location. -/
theorem visibleName?_eq_some {directory l : Location} {name : String}
    (h : visibleName? directory l = some name) : l = directory ++ [name] := by
  unfold visibleName? at h
  split at h
  · next last hlast =>
    split at h
    · next hvisible =>
      cases h
      rw [Bool.and_eq_true, decide_eq_true_eq] at hvisible
      rw [← hvisible.1]
      exact (List.dropLast_append_getLast? _ hlast).symm
    · cases h
  · cases h

private theorem visiblePart?_eq_some {directory l names : Location}
    (h : visiblePart? directory l = some names) : l = directory ++ names ∧ names ≠ [] := by
  unfold visiblePart? at h
  split at h
  · next hvisible =>
    cases h
    simp only [Bool.and_eq_true, decide_eq_true_eq] at hvisible
    obtain ⟨rest, rfl⟩ := List.isPrefixOf_iff_prefix.mp hvisible.1.1
    have hlt := hvisible.1.2
    rw [List.length_append] at hlt
    rw [List.drop_left]
    refine ⟨rfl, fun hnil => ?_⟩
    simp [hnil] at hlt
  · cases h

end FileTree

/-! ### Places with a path more -/

namespace Workspace

/-- `Grown w places places'`: the paths `places'` are the paths `places`, with paths among them that
lead nowhere in `w`. -/
inductive Grown (w : Workspace) : List String → List String → Prop where
  | nil : Grown w [] []
  | both (path : String) {ps ps' : List String} (h : Grown w ps ps') :
      Grown w (path :: ps) (path :: ps')
  | gone {path : String} (hpath : w.Gone path) {ps ps' : List String} (h : Grown w ps ps') :
      Grown w ps (path :: ps')

variable {w w' : Workspace} {l : Location}

namespace Grown

private theorem refl (w : Workspace) (ps : List String) : Grown w ps ps := by
  induction ps with
  | nil => exact .nil
  | cons path ps ih => exact .both path ih

private theorem insert {path : String} (hpath : w.Gone path) (front back : List String) :
    Grown w (front ++ back) (front ++ path :: back) := by
  induction front with
  | nil => exact .gone hpath (refl w back)
  | cons first front ih => exact .both first ih

private theorem filter {ps ps' : List String} (h : Grown w ps ps') (p : String → Bool) :
    Grown w (ps.filter p) (ps'.filter p) := by
  induction h with
  | nil => exact .nil
  | both path h ih =>
    rw [List.filter_cons, List.filter_cons]
    split
    · exact .both path ih
    · exact ih
  | gone hpath h ih =>
    rw [List.filter_cons]
    split
    · exact .gone hpath ih
    · exact ih

/-- Where a function gives nothing at paths that lead nowhere, it gives the same at all places. -/
theorem flatMap_eq {β : Type} {f f' : String → List β} {ps ps' : List String} (h : Grown w ps ps')
    (hboth : ∀ path, f' path = f path) (hgone : ∀ path, w.Gone path → f' path = []) :
    ps'.flatMap f' = ps.flatMap f := by
  induction h with
  | nil => rfl
  | both path h ih => rw [List.flatMap_cons, List.flatMap_cons, hboth, ih]
  | gone hpath h ih => rw [List.flatMap_cons, hgone _ hpath, ih, List.nil_append]

end Grown

/-- A name that is missing below a path leads nowhere, and neither does anything behind it. -/
theorem gone_of_missing {path name : String} (hpath : path ≠ "") (hname : Path.IsName name)
    (hmissing : w.exists? (Walk.below path name) = false) : w.Gone (Walk.below path name) := by
  refine ⟨?_, ?_, hmissing⟩
  · unfold Walk.below
    split
    · exact hname.nonempty
    · obtain ⟨rest, hrest⟩ := Path.join_eq_append path hname.slash
      simp [hrest, hpath]
  · unfold Walk.below
    split
    · exact hname.isHere
    · next haway => exact Path.isHere_join hpath hname.slash (by simpa using haway)

private theorem Gone.foldl {path : String} (h : w.Gone path) {names : List String}
    (hnames : ∀ name ∈ names, Path.IsName name) : w.Gone (names.foldl Walk.below path) := by
  induction names generalizing path with
  | nil => exact h
  | cons name names ih =>
    exact ih (h.below (hnames name List.mem_cons_self).slash) fun n hn =>
      hnames n (List.mem_cons_of_mem name hn)

/-- Names from a directory down to where nothing stands lead nowhere. -/
theorem gone_foldl {path : String} {k : Location} {names : List String}
    (hpath : w.locate path = .ok k) (hne : names ≠ [])
    (hnames : ∀ name ∈ names, Path.IsName name) (hnone : w.tree.get? (k ++ names) = none) :
    w.Gone (names.foldl Walk.below path) := by
  induction names generalizing path k with
  | nil => exact (hne rfl).elim
  | cons name names ih =>
    have hname := hnames name List.mem_cons_self
    have hothers : ∀ n ∈ names, Path.IsName n := fun n hn =>
      hnames n (List.mem_cons_of_mem name hn)
    cases hexists : w.exists? (Walk.below path name) with
    | false => exact (gone_of_missing (ne_empty_of_locate hpath) hname hexists).foldl hothers
    | true =>
      cases hbelow : w.locate (Walk.below path name) with
      | error fault => simp [exists?, entry?, hbelow] at hexists
      | ok m =>
        obtain ⟨rfl, hsome⟩ := follow_name hname (follow_of_locate_below hname hpath hbelow)
        refine ih hbelow ?_ hothers (by simpa using hnone)
        rintro rfl
        rw [hnone] at hsome
        cases hsome

namespace Emptied

variable (h : Emptied l w w')
include h

/-- The paths to the entries that are seen from a directory: they are the same, or there is one more
that was missing. -/
theorem grown_seen {α : Type} {see : Location → Option α} {le : α → α → Bool}
    (trans : ∀ a b c, le a b = true → le b c = true → le a c = true)
    (total : ∀ a b, (le a b || le b a) = true)
    (antisymm : ∀ a b, le a b = true → le b a = true → a = b) {path : String} {k : Location}
    (hpath : w.locate path = .ok k) (names : α → List String)
    (hsee : ∀ x, see l = some x → l = k ++ names x ∧ names x ≠ []) :
    Grown w
      ((((w.tree.entries.map (·.1)).filterMap see).mergeSort le).map fun x =>
        (names x).foldl Walk.below path)
      ((((w'.tree.entries.map (·.1)).filterMap see).mergeSort le).map fun x =>
        (names x).foldl Walk.below path) := by
  rw [h.locations]
  cases hl : w.tree.get? l with
  | some entry =>
    rw [Option.isSome_some, if_pos rfl, List.append_nil]
    exact .refl w _
  | none =>
    rw [Option.isSome_none, if_neg Bool.false_ne_true, List.filterMap_append]
    cases hx : see l with
    | none =>
      simp only [List.filterMap_cons, hx, List.filterMap_nil, List.append_nil]
      exact .refl w _
    | some x =>
      obtain ⟨hlocation, hne⟩ := hsee x hx
      obtain ⟨front, back, hmore, hbefore⟩ := mergeSort_concat trans total antisymm
        ((w.tree.entries.map (·.1)).filterMap see) x
      simp only [List.filterMap_cons, hx, List.filterMap_nil, hmore, hbefore, List.map_append,
        List.map_cons]
      refine .insert (gone_foldl hpath hne (fun name hname => ?_) (hlocation ▸ hl)) _ _
      exact h.named name (hlocation ▸ List.mem_append_right k hname)

private theorem grown_children (path : String) :
    Grown w (Walk.children w path) (Walk.children w' path) := by
  unfold Walk.children
  have hleads := h.leads_locate path
  generalize hpath : w.locate path = x at hleads
  generalize w'.locate path = x' at hleads
  cases hleads with
  | nowhere => exact .nil
  | opened =>
    simp only [h.file]
    exact .nil
  | same k =>
    simp only [h.directory_iff]
    split
    · simp only [FileTree.visibleNames_eq_locations]
      refine h.grown_seen (fun a b c => ?_) (fun a b => ?_) (fun a b => ?_) hpath
        (fun name => [name]) fun name hname => ?_
      · simpa using String.le_trans
      · simpa using String.le_total a b
      · simpa using String.le_antisymm
      · exact ⟨FileTree.visibleName?_eq_some hname, by simp⟩
    · exact .nil

private theorem grown_descendants (path : String) :
    Grown w (Walk.descendants w path) (Walk.descendants w' path) := by
  unfold Walk.descendants
  have hleads := h.leads_locate path
  generalize hpath : w.locate path = x at hleads
  generalize w'.locate path = x' at hleads
  cases hleads with
  | nowhere => exact .nil
  | opened =>
    simp only [h.file]
    exact .nil
  | same k =>
    simp only [h.directory_iff]
    split
    · simp only [FileTree.visibleBelow_eq_locations]
      exact h.grown_seen FileTree.before_trans FileTree.before_total FileTree.before_antisymm hpath
        (fun names => names) fun names hnames => FileTree.visiblePart?_eq_some hnames
    · exact .nil

/-- A path that leads somewhere only since the file was opened led nowhere. -/
theorem gone_of_exists? {path : String} (hmissing : w.exists? path = false)
    (hexists : w'.exists? path = true) : w.Gone path := by
  unfold exists? entry? at hexists
  split at hexists
  · next k hk =>
    have hkl : k = l := by
      by_contra hne
      have hnone := exists?_eq_false_iff.mp hmissing k (h.locate_of_ne hk hne)
      rw [h.other k hne, hnone] at hexists
      cases hexists
    refine ⟨ne_empty_of_locate hk, ?_, hmissing⟩
    by_contra hhere
    rw [Bool.not_eq_false] at hhere
    exact h.not_directory' (hkl ▸ (locate_of_isHere hhere hk).2)
  · cases hexists

end Emptied

end Workspace

/-! ### Walks -/

namespace Walk

/-- A component that stands for no name with a slash. -/
def Component.Slashless (c : Component) : Prop :=
  ∀ name, Glob.literal? c = some name → '/' ∉ name

private theorem slashless_of_parse {rest : List Char} {cs : List Component}
    (h : (components rest).mapM Glob.parse = .ok cs) : ∀ c ∈ cs, c.Slashless := by
  intro c hc name hname hslash
  obtain ⟨text, htext, hparse⟩ := mem_of_mem_mapM h c hc
  exact (Text.mem_of_mem_pieces (mem_pieces_of_mem_components htext)
    (mem_of_literal? hparse hname '/' hslash)).2 rfl

private theorem deep_nil (w : Workspace) (cs : List Component) : paths.deep w cs [] = [] := by
  induction cs with
  | nil => rfl
  | cons c cs ih =>
    rw [paths.deep]
    split
    · exact ih
    · rfl

private theorem descendants_of_not_directory {w : Workspace} {path : String}
    (h : w.isDirectory path = false) : descendants w path = [] := by
  unfold descendants
  split
  · next l hl =>
    split
    · next hdirectory => simp [Workspace.isDirectory, Workspace.entry?, hl, hdirectory] at h
    · rfl
  · rfl

/-- A pattern is none, or it stands for no files whatever there is, or for those that a walk
finds. -/
theorem expand_cases (pattern : List Char) :
    (∃ fault, ∀ w, expand w pattern = .error fault) ∨ (∀ w, expand w pattern = .ok []) ∨
      ∃ start cs, (∀ c ∈ cs, c.Slashless) ∧
        ∀ w, expand w pattern = .ok ((paths w cs start).filter w.isFile) := by
  cases hparse : Glob.parse pattern with
  | error fault =>
    refine .inl ⟨fault, fun w => ?_⟩
    rw [expand_eq, hparse]
    rfl
  | ok parts =>
    cases hcs : (components (belowRoot pattern)).mapM Glob.parse with
    | error fault =>
      refine .inl ⟨fault, fun w => ?_⟩
      rw [expand_eq, hparse, hcs]
      rfl
    | ok cs =>
      refine .inr ?_
      by_cases hlast : pattern.getLast? = some '/'
      · refine .inl fun w => ?_
        rw [expand_eq, hparse, hcs]
        exact if_pos hlast
      · refine .inr ⟨start pattern, cs, slashless_of_parse hcs, fun w => ?_⟩
        rw [expand_eq, hparse, hcs]
        exact if_neg hlast

/-- A pattern stands for files. -/
theorem isFile_of_expand {w : Workspace} {pattern : List Char} {found : List String}
    (h : expand w pattern = .ok found) : ∀ path ∈ found, w.isFile path = true := by
  rcases expand_cases pattern with ⟨fault, hfault⟩ | hnone | ⟨start, cs, -, hexpand⟩
  · rw [hfault] at h
    cases h
  · rw [hnone] at h
    cases h
    simp
  · rw [hexpand] at h
    cases h
    exact fun path hpath => (List.mem_filter.mp hpath).2

end Walk

namespace Workspace

variable {w w' : Workspace} {l : Location}

private theorem Gone.isDirectory {path : String} (h : w.Gone path) :
    w.isDirectory path = false := by
  have hmissing := h.missing
  rw [exists?, Option.isSome_eq_false_iff, Option.isNone_iff_eq_none] at hmissing
  rw [Workspace.isDirectory, hmissing]
  rfl

private theorem Gone.isFile {path : String} (h : w.Gone path) : w.isFile path = false := by
  have hmissing := h.missing
  rw [exists?, Option.isSome_eq_false_iff, Option.isNone_iff_eq_none] at hmissing
  rw [Workspace.isFile, hmissing]
  rfl

namespace Emptied

variable (h : Emptied l w w')
include h

/-- Behind a path that led nowhere, components stand for no file but the new one. -/
theorem files_of_gone {cs : List Walk.Component} (hcs : ∀ c ∈ cs, c.Slashless) {path : String}
    (hpath : w.Gone path) : (Walk.paths w' cs path).filter w.isFile = [] := by
  induction cs generalizing path with
  | nil => simp [Walk.paths, hpath.isFile]
  | cons c cs ih =>
    have hdirectory : w'.isDirectory path = false := (h.isDirectory_eq path).trans hpath.isDirectory
    rw [Walk.paths]
    split
    · next name hname =>
      have hslash : '/' ∉ (String.ofList name).toList := by
        rw [String.toList_ofList]
        exact hcs c List.mem_cons_self name hname
      dsimp only
      split
      · rw [hdirectory]
        rfl
      · split
        · exact ih (fun d hd => hcs d (List.mem_cons_of_mem c hd)) (hpath.below hslash)
        · rfl
    · rw [Walk.descendants_of_not_directory hdirectory, Walk.deep_nil, hdirectory]
      simp

/-- Components stand for the same files below a path, the new file aside. -/
theorem files_eq {cs : List Walk.Component} (hcs : ∀ c ∈ cs, c.Slashless) :
    (∀ path, (Walk.paths w' cs path).filter w.isFile = (Walk.paths w cs path).filter w.isFile) ∧
      ∀ ps ps', Grown w ps ps' →
        (Walk.paths.deep w' cs ps').filter w.isFile =
          (Walk.paths.deep w cs ps).filter w.isFile := by
  induction cs with
  | nil => exact ⟨fun _ => rfl, fun _ _ _ => rfl⟩
  | cons c cs ih =>
    have hrest : ∀ d ∈ cs, d.Slashless := fun d hd => hcs d (List.mem_cons_of_mem c hd)
    obtain ⟨hpaths, hdeep⟩ := ih hrest
    have hplaces {ps ps' : List String} (hgrown : Grown w ps ps') :
        (ps'.flatMap (Walk.paths w' cs)).filter w.isFile =
          (ps.flatMap (Walk.paths w cs)).filter w.isFile := by
      rw [List.filter_flatMap, List.filter_flatMap]
      exact hgrown.flatMap_eq hpaths fun path hpath => h.files_of_gone hrest hpath
    constructor
    · intro path
      rw [Walk.paths, Walk.paths]
      split
      · next name hname =>
        dsimp only
        split
        · rw [h.isDirectory_eq]
          split
          · exact hpaths _
          · rfl
        · generalize Walk.below path (String.ofList name) = next
          cases hexists : w.exists? next with
          | true =>
            rw [h.exists?_of_exists? hexists, if_pos rfl, if_pos rfl]
            exact hpaths next
          | false =>
            rw [if_neg Bool.false_ne_true]
            split
            · next hnew => exact h.files_of_gone hrest (h.gone_of_exists? hexists hnew)
            · rfl
      · split
        · exact hdeep _ _ (h.grown_descendants path)
        · rw [h.isDirectory_eq]
          split
          · rw [List.filter_append, List.filter_append]
            congr 1
            · rw [List.filter_flatMap, List.filter_flatMap]
              exact List.flatMap_congr fun name _ => hpaths _
            · exact hplaces ((h.grown_children path).filter _)
          · rfl
    · intro ps ps' hgrown
      rw [Walk.paths.deep, Walk.paths.deep]
      split
      · exact hdeep ps ps' hgrown
      · exact hplaces (hgrown.filter _)

/-- A pattern stood for the files among those that it stands for since the file was opened. -/
theorem walk_filter (pattern : List Char) :
    Walk.expand w pattern = (Walk.expand w' pattern).map fun found => found.filter w.isFile := by
  rcases Walk.expand_cases pattern with ⟨fault, hfault⟩ | hnone | ⟨start, cs, hcs, hexpand⟩
  · rw [hfault, hfault]
    rfl
  · rw [hnone, hnone]
    rfl
  · rw [hexpand, hexpand, ← (h.files_eq hcs).1 start, Except.map, List.filter_filter]
    refine congrArg Except.ok (List.filter_congr fun path _ => ?_)
    cases hfile : w.isFile path with
    | false => rfl
    | true => rw [h.isFile_of_isFile hfile, Bool.and_self]

/-- A pattern that does not stand for the new file stands for the same files as before. -/
theorem walk_eq {pattern : List Char}
    (hnew : ∀ found, Walk.expand w' pattern = .ok found →
      ∀ path ∈ found, w'.locate path ≠ .ok l) : Walk.expand w' pattern = Walk.expand w pattern := by
  rw [h.walk_filter pattern]
  cases hfound : Walk.expand w' pattern with
  | error fault => rfl
  | ok found =>
    have hfiles : ∀ path ∈ found, w.isFile path = true := fun path hpath =>
      (h.isFile_eq (hnew found hfound path hpath)).symm.trans
        (Walk.isFile_of_expand hfound path hpath)
    rw [Except.map, List.filter_eq_self.mpr hfiles]

private theorem firstMatch_eq {patterns : List (List Char)}
    (hnew : ∀ found, Sources.firstMatch w' patterns = .ok found →
      ∀ path ∈ found, w'.locate path ≠ .ok l) :
    Sources.firstMatch w' patterns = Sources.firstMatch w patterns := by
  induction patterns with
  | nil => rfl
  | cons pattern rest ih =>
    have hwalk : Walk.expand w' pattern = Walk.expand w pattern := by
      refine h.walk_eq fun found hfound path hpath => ?_
      cases found with
      | nil => cases hpath
      | cons first others => exact hnew _ (by rw [Sources.firstMatch, hfound]) path hpath
    rw [Sources.firstMatch] at hnew ⊢
    rw [Sources.firstMatch, ← hwalk]
    split
    · rfl
    · next hnone => exact ih fun found hfound => hnew found (by simpa only [hnone] using hfound)
    · rfl

/-- Among the sources, a pattern that does not stand for the new file stood for the same files
before. -/
theorem expand_eq {s : Sources} {pattern : String} {result : Except LoadFault (List String)}
    (hexpand : s.expand w' pattern = result)
    (hnew : ∀ found, result = .ok found → ∀ path ∈ found, w'.locate path ≠ .ok l) :
    s.expand w pattern = result := by
  have hfirst : Sources.firstMatch w' (s.patterns pattern) =
      Sources.firstMatch w (s.patterns pattern) :=
    h.firstMatch_eq fun found hfound =>
      hnew found (hexpand.symm.trans (by rw [Sources.expand, hfound]))
  rw [← hexpand, Sources.expand, Sources.expand, hfirst]

private theorem firstMatch_filter {patterns : List (List Char)} {found : List String}
    {path : String}
    (hfound : Sources.firstMatch w' patterns = .ok found) (hpath : path ∈ found)
    (hfile : w.isFile path = true) :
    Sources.firstMatch w patterns = .ok (found.filter w.isFile) := by
  induction patterns with
  | nil =>
    cases hfound
    cases hpath
  | cons pattern rest ih =>
    rw [Sources.firstMatch] at hfound
    rw [Sources.firstMatch, h.walk_filter pattern]
    cases hwalk : Walk.expand w' pattern with
    | error fault =>
      rw [hwalk] at hfound
      cases hfound
    | ok files =>
      cases files with
      | nil =>
        rw [hwalk] at hfound
        exact ih hfound
      | cons first others =>
        rw [hwalk] at hfound
        cases hfound
        have hne : (first :: others).filter w.isFile ≠ [] :=
          List.ne_nil_of_mem (List.mem_filter.mpr ⟨hpath, hfile⟩)
        obtain ⟨kept, more, hkept⟩ := List.exists_cons_of_ne_nil hne
        simp only [Except.map, hkept]

/-- If a pattern stands for a file that was there before, then it stood for those of its files that
were. -/
theorem expand_filter {s : Sources} {pattern : String} {found : List String} {path : String}
    (hfound : s.expand w' pattern = .ok found) (hpath : path ∈ found)
    (hfile : w.isFile path = true) : s.expand w pattern = .ok (found.filter w.isFile) := by
  unfold Sources.expand at hfound ⊢
  split at hfound
  · cases hfound
  · next hfirst =>
    cases hfound
    rw [h.firstMatch_filter hfirst hpath hfile]

end Emptied

end Workspace

end PromptOutline
