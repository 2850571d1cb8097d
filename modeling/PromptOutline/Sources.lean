import PromptOutline.FileTree.Walk
import PromptOutline.Text.Blank

/-!
# Sources

Outlines name other files. A name is looked up as it is and then below each search path, and the
first one that exists is taken. The locations of the outlines read so far are recorded, and no
outline is read twice. Embedded files are read as they are and are not recorded.
-/

namespace PromptOutline

/-- A file that was found and read. -/
structure SourceFile where
  /-- The path under which the file was found. -/
  name : String
  location : Location
  contents : String
  deriving Repr, DecidableEq, Inhabited

/-- Why a file could not be used. -/
inductive LoadFault where
  | notFound (name : String)
  | permissionDenied (name : String)
  | isDirectory (name : String)
  | alreadyUsed (name : String)
  | badPattern (pattern reason : String)
  | unreadable (path reason : String)
  deriving Repr, DecidableEq

namespace LoadFault

/-- The wording of a fault. -/
def message : LoadFault → String
  | notFound name => s!"File not found: {name}"
  | permissionDenied name => s!"You do not have permission to access: {name}"
  | isDirectory name => s!"Is a directory: {name}"
  | alreadyUsed name => s!"The file '{name}' has already been used"
  | badPattern pattern reason => s!"Invalid wildcard pattern '{pattern}' for 'Embed': {reason}"
  | unreadable path reason => s!"OS error reading {path}: {reason}"

/-- Whether reading has to stop. Only a bad pattern is passed over. -/
def isFatal : LoadFault → Bool
  | badPattern _ _ => false
  | _ => true

/-- The fault for a path that the file system refuses. -/
def ofFile (name : String) : FileFault → LoadFault
  | .missing => notFound name
  | .permissionDenied => permissionDenied name
  | fault => unreadable name fault.message

end LoadFault

/-- Where outlines are looked for, and which were read. -/
structure Sources where
  searchPaths : List String := []
  used : List Location := []
  deriving Repr, DecidableEq, Inhabited

namespace Sources

/-- The paths that a name may stand for, in the order they are tried. -/
def candidates (s : Sources) (name : String) : List String :=
  name :: if Path.isAbsolute name then [] else s.searchPaths.map (Path.join · name)

/-- The first path that exists. -/
def resolve (s : Sources) (w : Workspace) (name : String) : Except LoadFault String :=
  match (s.candidates name).find? w.exists? with
  | some path => .ok path
  | none => .error (.notFound name)

/-- Record a location and read the outline there. The location stays recorded if reading fails. -/
def readOnce (s : Sources) (w : Workspace) (name path : String) (l : Location) :
    Sources × Except LoadFault SourceFile :=
  if s.used.contains l then (s, .error (.alreadyUsed name))
  else
    ({ s with used := s.used ++ [l] },
      match w.readText path with
      | .error fault => .error (.ofFile name fault)
      | .ok contents => .ok { name := path, location := l, contents })

/-- Find and read an outline that was not read before. -/
def load (s : Sources) (w : Workspace) (name : String) : Sources × Except LoadFault SourceFile :=
  match s.resolve w name with
  | .error fault => (s, .error fault)
  | .ok path =>
    if w.isDirectory path then (s, .error (.isDirectory name))
    else match w.locate path with
      | .error fault => (s, .error (.ofFile name fault))
      | .ok l => s.readOnce w name path l

/-- Read a file to be embedded. -/
def loadEmbedded (w : Workspace) (path : String) : Except LoadFault SourceFile :=
  if w.isDirectory path then .error (.isDirectory path)
  else match w.locate path, w.read path with
    | .ok location, .ok bytes => .ok { name := path, location, contents := Text.Utf8.lossy bytes }
    | .error fault, _ => .error (.ofFile path fault)
    | _, .error fault => .error (.ofFile path fault)

/-- The patterns that a pattern may stand for, in the order they are tried. -/
def patterns (s : Sources) (pattern : String) : List (List Char) :=
  let normal := Glob.normalise pattern.toList
  normal :: if Path.isAbsolute pattern then [] else s.searchPaths.map fun directory =>
    Text.dropTrailing '/' (Glob.escape directory.toList) ++ '/' :: normal

/-- The files of the first of some patterns that stands for any. -/
def firstMatch (w : Workspace) : List (List Char) → Except PatternFault (List String)
  | [] => .ok []
  | pattern :: rest =>
    match Walk.expand w pattern with
    | .error fault => .error fault
    | .ok [] => firstMatch w rest
    | .ok (path :: paths) => .ok (path :: paths)

/-- The files that a pattern stands for. -/
def expand (s : Sources) (w : Workspace) (pattern : String) : Except LoadFault (List String) :=
  match firstMatch w (s.patterns pattern) with
  | .error fault => .error (.badPattern pattern fault.message)
  | .ok paths => .ok paths

/-- An outline that was loaded is a file that was not recorded before and is recorded now. -/
theorem load_eq_ok {s s' : Sources} {w : Workspace} {name : String} {f : SourceFile}
    (h : s.load w name = (s', .ok f)) :
    s'.used = s.used ++ [f.location] ∧ f.location ∉ s.used ∧
      ∃ bytes, w.tree.get? f.location = some (.file bytes) := by
  unfold load at h
  split at h
  · simp at h
  · next path _ =>
    split at h
    · simp at h
    · split at h
      · simp at h
      · next l hl =>
        unfold readOnce at h
        split at h
        · simp at h
        · next hu =>
          split at h
          · simp at h
          · next contents hr =>
            simp only [Prod.mk.injEq, Except.ok.injEq] at h
            obtain ⟨rfl, rfl⟩ := h
            refine ⟨rfl, by simpa using hu, ?_⟩
            simp only [Workspace.readText, Workspace.read, hl] at hr
            cases hg : w.tree.get? l with
            | none => simp [hg] at hr
            | some e =>
              cases e with
              | file bytes => exact ⟨bytes, rfl⟩
              | directory => simp [hg] at hr
              | full => simp [hg] at hr
              | locked => simp [hg] at hr

end Sources

end PromptOutline
