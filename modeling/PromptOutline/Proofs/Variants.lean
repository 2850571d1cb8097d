import PromptOutline.Proofs.Collecting
import PromptOutline.Proofs.Lookups

/-!
# Workspaces that differ in contents

Names and patterns are resolved by what stands where, not by what files hold. So workspaces that
differ only in the contents of some files resolve every name and pattern the same, load the same
outlines from other locations, and embed files of the same names.
-/

namespace PromptOutline

namespace FileTree

/-- The name of a location in a directory, unless it is hidden. -/
def visibleName? (directory l : Location) : Option String :=
  match l.getLast? with
  | some name => if l.dropLast = directory && !isHidden name then some name else none
  | none => none

/-- The names from a directory down to a location, if none of them is hidden. -/
def visiblePart? (directory l : Location) : Option (List String) :=
  if directory.isPrefixOf l && directory.length < l.length &&
      !(l.drop directory.length).any isHidden then
    some (l.drop directory.length)
  else none

/-- The visible names in a directory depend on the locations in the tree alone. -/
theorem visibleNames_eq_locations (t : FileTree) (directory : Location) :
    t.visibleNames directory =
      ((t.entries.map (·.1)).filterMap (visibleName? directory)).mergeSort
        fun a b => decide (a ≤ b) := by
  rw [visibleNames, List.filterMap_map]
  rfl

/-- What is visible below a directory depends on the locations in the tree alone. -/
theorem visibleBelow_eq_locations (t : FileTree) (directory : Location) :
    t.visibleBelow directory =
      ((t.entries.map (·.1)).filterMap (visiblePart? directory)).mergeSort before := by
  rw [visibleBelow, List.filterMap_map]
  rfl

end FileTree

/-- Workspaces that differ only in the contents of the files at some locations. -/
structure Workspace.SameBut (files : List Location) (w w' : Workspace) : Prop where
  here : w.here = w'.here
  locations : w.tree.entries.map (·.1) = w'.tree.entries.map (·.1)
  entry : ∀ l, w.tree.get? l = w'.tree.get? l ∨ l ∈ files ∧ ∃ bytes bytes',
    w.tree.get? l = some (.file bytes) ∧ w'.tree.get? l = some (.file bytes')

namespace Workspace.SameBut

variable {files : List Location} {w w' : Workspace}

/-! ### Paths -/

/-- Two workspaces have the same entries at other locations. -/
theorem get?_of_notMem (h : w.SameBut files w') {l : Location} (hl : l ∉ files) :
    w.tree.get? l = w'.tree.get? l :=
  (h.entry l).resolve_right fun hfile => hl hfile.1

private theorem isSome_get? (h : w.SameBut files w') (l : Location) :
    (w.tree.get? l).isSome = (w'.tree.get? l).isSome := by
  obtain he | ⟨-, bytes, bytes', hw, hw'⟩ := h.entry l
  · rw [he]
  · rw [hw, hw']
    rfl

private theorem follow_eq (h : w.SameBut files w') : follow w.tree = follow w'.tree := by
  funext l part
  simp only [follow, h.isSome_get?]
  obtain he | ⟨-, bytes, bytes', hw, hw'⟩ := h.entry l
  · rw [he]
  · rw [hw, hw']

/-- Paths lead to the same locations in both workspaces. -/
theorem locate_eq (h : w.SameBut files w') : w.locate = w'.locate := by
  funext path
  simp only [locate, followAll, h.follow_eq, start, h.here]

private theorem exists?_eq (h : w.SameBut files w') : w.exists? = w'.exists? := by
  funext path
  simp only [exists?, entry?, h.locate_eq]
  cases w'.locate path with
  | error fault => rfl
  | ok l => exact h.isSome_get? l

private theorem directory_iff (h : w.SameBut files w') (l : Location) :
    w.tree.get? l = some .directory ↔ w'.tree.get? l = some .directory := by
  obtain he | ⟨-, bytes, bytes', hw, hw'⟩ := h.entry l
  · rw [he]
  · simp [hw, hw']

/-- The directories are the same in both workspaces. -/
theorem isDirectory_eq (h : w.SameBut files w') : w.isDirectory = w'.isDirectory := by
  funext path
  simp only [isDirectory, entry?, h.locate_eq]
  cases w'.locate path with
  | error fault => rfl
  | ok l =>
    rw [Bool.eq_iff_iff, beq_iff_eq, beq_iff_eq]
    exact h.directory_iff l

private theorem isFile_eq (h : w.SameBut files w') : w.isFile = w'.isFile := by
  funext path
  simp only [isFile, entry?, h.locate_eq]
  cases w'.locate path with
  | error fault => rfl
  | ok l =>
    obtain he | ⟨-, bytes, bytes', hw, hw'⟩ := h.entry l
    · simp only [he]
    · simp only [hw, hw', Option.any_some, Entry.isFile]

private theorem read_eq (h : w.SameBut files w') {path : String}
    (hpath : ∀ l, w.locate path = .ok l → l ∉ files) : w.read path = w'.read path := by
  rw [h.locate_eq] at hpath
  simp only [read, h.locate_eq]
  split
  · rfl
  · next l hl => rw [h.get?_of_notMem (hpath l hl)]

/-! ### Patterns -/

private theorem visibleNames_eq (h : w.SameBut files w') :
    w.tree.visibleNames = w'.tree.visibleNames := by
  funext directory
  rw [FileTree.visibleNames_eq_locations, FileTree.visibleNames_eq_locations, h.locations]

private theorem visibleBelow_eq (h : w.SameBut files w') :
    w.tree.visibleBelow = w'.tree.visibleBelow := by
  funext directory
  rw [FileTree.visibleBelow_eq_locations, FileTree.visibleBelow_eq_locations, h.locations]

private theorem children_eq (h : w.SameBut files w') : Walk.children w = Walk.children w' := by
  funext path
  simp only [Walk.children, h.locate_eq, h.visibleNames_eq, h.directory_iff]

private theorem descendants_eq (h : w.SameBut files w') :
    Walk.descendants w = Walk.descendants w' := by
  funext path
  simp only [Walk.descendants, h.locate_eq, h.visibleBelow_eq, h.directory_iff]

private theorem paths_eq (h : w.SameBut files w') (cs : List Walk.Component) :
    Walk.paths w cs = Walk.paths w' cs ∧ Walk.paths.deep w cs = Walk.paths.deep w' cs := by
  induction cs with
  | nil => exact ⟨funext fun _ => rfl, funext fun _ => rfl⟩
  | cons c rest ih =>
    obtain ⟨hpaths, hdeep⟩ := ih
    constructor
    · funext path
      simp only [Walk.paths, hpaths, hdeep, h.isDirectory_eq, h.exists?_eq, h.children_eq,
        h.descendants_eq]
    · funext places
      simp only [Walk.paths.deep, hpaths, hdeep]

private theorem walk_eq (h : w.SameBut files w') : Walk.expand w = Walk.expand w' := by
  funext pattern
  simp only [Walk.expand, (h.paths_eq _).1, h.isFile_eq]

/-- A pattern stands for the same paths in both workspaces. -/
theorem expand_eq (h : w.SameBut files w') (s : Sources) (pattern : String) :
    s.expand w pattern = s.expand w' pattern := by
  have hfirst (patterns : List (List Char)) :
      Sources.firstMatch w patterns = Sources.firstMatch w' patterns := by
    induction patterns with
    | nil => rfl
    | cons pattern rest ih => simp only [Sources.firstMatch, h.walk_eq, ih]
  simp only [Sources.expand, hfirst]

/-! ### Files -/

/-- A name is resolved to the same path in both workspaces. -/
theorem resolve_eq (h : w.SameBut files w') (s : Sources) (name : String) :
    s.resolve w name = s.resolve w' name := by
  simp only [Sources.resolve, h.exists?_eq]

/-- Outlines are loaded the same from other locations. -/
theorem load_eq (h : w.SameBut files w') {s : Sources} {name : String}
    (hname : ∀ l ∈ s.lookup? w name, l ∉ files) : s.load w name = s.load w' name := by
  rw [Sources.lookup?] at hname
  rw [Sources.load, Sources.load, ← h.resolve_eq, ← h.isDirectory_eq, ← h.locate_eq]
  cases hpath : s.resolve w name with
  | error fault => rfl
  | ok path =>
    simp only [hpath] at hname ⊢
    cases hdirectory : w.isDirectory path with
    | true => rfl
    | false =>
      simp only [hdirectory] at hname
      cases hlocate : w.locate path with
      | error fault => rfl
      | ok l =>
        have hread : w.read path = w'.read path := by
          refine h.read_eq fun k hk => hname k ?_
          rw [hk]
          rfl
        simp only [Sources.readOnce, readText, hread]

/-- Embedded files have other contents only at the given locations. -/
theorem loadEmbedded_cases (h : w.SameBut files w') (path : String) :
    Sources.loadEmbedded w path = Sources.loadEmbedded w' path ∨
      ∃ f f', Sources.loadEmbedded w path = .ok f ∧ Sources.loadEmbedded w' path = .ok f' ∧
        f.location ∈ files ∧ f'.location ∈ files := by
  simp only [Sources.loadEmbedded, read, h.isDirectory_eq, h.locate_eq]
  split
  · exact .inl rfl
  · cases w'.locate path with
    | error fault => exact .inl rfl
    | ok l =>
      obtain he | ⟨hl, bytes, bytes', hw, hw'⟩ := h.entry l
      · simp only [he]
        exact .inl trivial
      · simp only [hw, hw']
        exact .inr ⟨_, _, rfl, rfl, hl, hl⟩

end Workspace.SameBut

end PromptOutline
