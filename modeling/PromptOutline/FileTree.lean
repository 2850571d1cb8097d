import PromptOutline.Path
import PromptOutline.Text.Utf8

/-!
# File trees

A file tree is a finite set of files and directories, each at a location: the names from the root
down. A workspace is a tree together with a working directory, and says which location a path leads
to. There are no links: a file that a disk shows under two names is two files here, each at its own
location. Every directory can be entered and listed; a file may be locked, so that nobody reads it.
-/

namespace PromptOutline

/-- The names from the root down to an entry. Every entry has exactly one location. -/
abbrev Location := List String

/-- What stands at a location. -/
inductive Entry where
  | file (bytes : List UInt8)
  | directory
  /-- A device that can be opened for writing and refuses every byte. It is not meant to be read. -/
  | full
  /-- A file that may be neither read nor written. -/
  | locked
  deriving Repr, DecidableEq, Inhabited

/-- Whether an entry is a file, which holds bytes whoever may read them. -/
def Entry.isFile : Entry → Bool
  | file _ | locked => true
  | directory | full => false

/-- Why the file system refuses a path. -/
inductive FileFault where
  | missing
  | permissionDenied
  | notDirectory
  | isDirectory
  | noSpace
  | nameTooLong
  | nulInName
  | invalidText
  deriving Repr, DecidableEq

/-- The wording of a fault. -/
def FileFault.message : FileFault → String
  | missing => "No such file or directory (os error 2)"
  | permissionDenied => "Permission denied (os error 13)"
  | notDirectory => "Not a directory (os error 20)"
  | isDirectory => "Is a directory (os error 21)"
  | noSpace => "No space left on device (os error 28)"
  | nameTooLong => "File name too long (os error 36)"
  | nulInName => "file name contained an unexpected NUL byte"
  | invalidText => "stream did not contain valid UTF-8"

/-- Entries at their locations. The root is a directory and has no entry of its own. -/
structure FileTree where
  entries : List (Location × Entry) := []
  deriving Repr, DecidableEq, Inhabited

namespace FileTree

/-- The entry at a location. -/
def get? (t : FileTree) (loc : Location) : Option Entry :=
  if loc = [] then some .directory else t.entries.lookup loc

/-- Put an entry at a location, in place of one that stands there. -/
def set (t : FileTree) (loc : Location) (e : Entry) : FileTree :=
  if (t.entries.lookup loc).isSome then
    ⟨t.entries.map fun (l, old) => if l = loc then (l, e) else (l, old)⟩
  else ⟨t.entries ++ [(loc, e)]⟩

/-- The tree with a directory at a location and at every location above it. -/
def makeDirectories (t : FileTree) (loc : Location) : FileTree :=
  ((List.range (loc.length + 1)).map loc.take).foldl
    (fun t l => if (t.get? l).isSome then t else t.set l .directory) t

/-- The tree with a file at a location and directories above it. -/
def addFile (t : FileTree) (loc : Location) (bytes : List UInt8) : FileTree :=
  (t.makeDirectories loc.dropLast).set loc (.file bytes)

/-- The locations of the files. -/
def files (t : FileTree) : List Location :=
  t.entries.filterMap fun (l, e) => match e with
    | .file _ => some l
    | _ => none

/-- A hidden name starts with a dot. -/
def isHidden (name : String) : Bool := name.toList.head? == some '.'

/-- The order of locations: name by name, a directory before what it holds. -/
def before : Location → Location → Bool
  | [], _ => true
  | _ :: _, [] => false
  | a :: as, b :: bs => if a = b then before as bs else decide (a < b)

/-- The names in a directory in order, without hidden ones. -/
def visibleNames (t : FileTree) (directory : Location) : List String :=
  ((t.entries.filterMap fun (l, _) =>
    match l.getLast? with
    | some name => if l.dropLast = directory && !isHidden name then some name else none
    | none => none).mergeSort fun a b => decide (a ≤ b))

/-- What can be reached from a directory without passing a hidden name: the names from the directory
down, in the order of locations. -/
def visibleBelow (t : FileTree) (directory : Location) : List (List String) :=
  ((t.entries.filterMap fun (l, _) =>
    if directory.isPrefixOf l && directory.length < l.length &&
        !(l.drop directory.length).any isHidden then
      some (l.drop directory.length)
    else none).mergeSort before)

/-- A tree with one entry at each location, under names that a file system takes. -/
structure IsSound (t : FileTree) : Prop where
  distinct : (t.entries.map (·.1)).Nodup
  named : ∀ l ∈ t.entries.map (·.1), ∀ name ∈ l, Path.IsName name ∧ '\x00' ∉ name.toList

end FileTree

/-- A file tree and the directory that relative paths start from. -/
structure Workspace where
  tree : FileTree := {}
  here : Location := []
  deriving Repr, DecidableEq, Inhabited

/-- A workspace whose working directory is given by the names of directories. -/
structure PlacedWorkspace extends Workspace where
  named : ∀ name ∈ here, Path.IsName name

instance : Coe PlacedWorkspace Workspace := ⟨PlacedWorkspace.toWorkspace⟩

/-- A workspace over a sound tree. -/
structure SoundWorkspace extends Workspace where
  sound : tree.IsSound

instance : Coe SoundWorkspace Workspace := ⟨SoundWorkspace.toWorkspace⟩

namespace Workspace

/-- The greatest number of bytes in a name. -/
def nameLimit : Nat := 255

/-- The number of bytes that a path has to stay below. -/
def pathLimit : Nat := 4096

/-- Follow one part of a path. Only a directory can be left, and a part that is empty or a single
dot stays in it. -/
def follow (t : FileTree) (loc : Location) (part : String) : Except FileFault Location :=
  match t.get? loc with
  | some .directory =>
    if part = "" || part = "." then .ok loc
    else if part = ".." then .ok loc.dropLast
    else if nameLimit < part.utf8ByteSize then .error .nameTooLong
    else if (t.get? (loc ++ [part])).isSome then .ok (loc ++ [part])
    else .error .missing
  | _ => .error .notDirectory

/-- Follow the parts of a path. -/
def followAll (t : FileTree) (start : Location) (parts : List String) : Except FileFault Location :=
  parts.foldlM (follow t) start

/-- A path that cannot be looked up at all. -/
def refused? (path : String) : Option FileFault :=
  if path.toList.contains '\x00' then some .nulInName
  else if path = "" then some .missing
  else if pathLimit ≤ path.utf8ByteSize then some .nameTooLong
  else none

/-- Where a path starts. -/
def start (w : Workspace) (path : String) : Location := if Path.isAbsolute path then [] else w.here

/-- The location that a path leads to. -/
def locate (w : Workspace) (path : String) : Except FileFault Location :=
  match refused? path with
  | some fault => .error fault
  | none => followAll w.tree (w.start path) (Path.parts path)

/-- The entry that a path leads to. -/
def entry? (w : Workspace) (path : String) : Option Entry :=
  match w.locate path with
  | .ok l => w.tree.get? l
  | .error _ => none

/-- Whether a path leads anywhere. -/
def exists? (w : Workspace) (path : String) : Bool := (w.entry? path).isSome

/-- Whether a path leads to a directory. -/
def isDirectory (w : Workspace) (path : String) : Bool := w.entry? path == some .directory

/-- Whether a path leads to a file. -/
def isFile (w : Workspace) (path : String) : Bool := (w.entry? path).any Entry.isFile

/-- The bytes of the file that a path leads to. A full device has no end, so reading it is ruled out
here by the fault that it gives for every byte. -/
def read (w : Workspace) (path : String) : Except FileFault (List UInt8) :=
  match w.locate path with
  | .error fault => .error fault
  | .ok l => match w.tree.get? l with
    | some (.file bytes) => .ok bytes
    | some .locked => .error .permissionDenied
    | some .full => .error .noSpace
    | some .directory => .error .isDirectory
    | none => .error .missing

/-- The text of the file that a path leads to. -/
def readText (w : Workspace) (path : String) : Except FileFault String :=
  match w.read path with
  | .error fault => .error fault
  | .ok bytes => match Text.Utf8.text? bytes with
    | some s => .ok s
    | none => .error .invalidText

/-- The location where a path opens a file for writing. The directory that holds it must be there,
and a path that ends in a slash or in dots names no file. -/
def locateForWriting (w : Workspace) (path : String) : Except FileFault Location :=
  match refused? path with
  | some fault => .error fault
  | none =>
    let parts := Path.parts path
    let named := (parts.reverse.dropWhile (· = "")).reverse
    match named.getLast? with
    | none => .error .isDirectory
    | some last => do
      let directory ← followAll w.tree (w.start path) named.dropLast
      match w.tree.get? directory with
      | some .directory =>
        if named.length < parts.length || last = "." || last = ".." then .error .isDirectory
        else if nameLimit < last.utf8ByteSize then .error .nameTooLong
        else if w.tree.get? (directory ++ [last]) = some .directory then .error .isDirectory
        else .ok (directory ++ [last])
      | _ => .error .notDirectory

/-- Open a file for writing, which leaves it empty. -/
def create (w : Workspace) (path : String) : Except FileFault (Workspace × Location) :=
  match w.locateForWriting path with
  | .error fault => .error fault
  | .ok l =>
    match w.tree.get? l with
    | some .full => .ok (w, l)
    | some .locked => .error .permissionDenied
    | _ => .ok ({ w with tree := w.tree.set l (.file []) }, l)

/-- Write a text into a file that was opened. A full device takes only the empty text. -/
def write (w : Workspace) (loc : Location) (s : String) : Except FileFault Workspace :=
  if w.tree.get? loc = some .full then if s = "" then .ok w else .error .noSpace
  else .ok { w with tree := w.tree.set loc (.file (Text.Utf8.encode s)) }

end Workspace

end PromptOutline
