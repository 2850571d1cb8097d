import PromptOutline.FileTree
import PromptOutline.FileTree.Pattern

/-!
# The files that a pattern stands for

A pattern is cut at slashes, and its components are followed from the working directory or from the
root. A component without wildcards is put behind the path so far and only has to exist. Any other
component is compared with the names in the directory, in the order of their bytes; hidden names are
not compared. A component of two stars goes through everything below the directory, each directory
before what it holds.
-/

namespace PromptOutline.Walk

/-- A component of a pattern. -/
abbrev Component := List Glob

/-- Whether a component stands for any number of directories. -/
def isDeep (c : Component) : Bool := c.contains .anyDirectories

/-- A path with a name below it; the directory that a walk starts from is not written. -/
def below (path name : String) : String := if Path.isHere path then name else Path.join path name

/-- The entries in the directory that a path leads to. -/
def children (w : Workspace) (path : String) : List String :=
  match w.locate path with
  | .ok l => if w.tree.get? l = some .directory then
      (w.tree.visibleNames l).map fun name => below path name
    else []
  | .error _ => []

/-- Everything below the directory that a path leads to. -/
def descendants (w : Workspace) (path : String) : List String :=
  match w.locate path with
  | .ok l => if w.tree.get? l = some .directory then
      (w.tree.visibleBelow l).map fun names => names.foldl below path
    else []
  | .error _ => []

/-- Whether the last name of a path is one that a component stands for. -/
def fits (c : Component) (path : String) : Bool :=
  (Path.fileName? path).any fun name => Glob.matches? c name.toList

/-- The names for the directory itself and the one above it that a component stands for. Only a
component that starts with a dot stands for them. -/
def dotNames (c : Component) : List String :=
  if c.head? = some (.literal '.') then ["..", "."].filter fun s => Glob.matches? c s.toList else []

/-- The paths that components stand for below a path. -/
def paths (w : Workspace) : List Component → String → List String
  | [], path => [path]
  | c :: rest, path =>
    match Glob.literal? c with
    | some name =>
      let name := String.ofList name
      let next := below path name
      if (if name = "." || name = ".." then w.isDirectory path else w.exists? next) then
        paths w rest next
      else []
    | none =>
      if isDeep c then deep w rest (descendants w path)
      else if w.isDirectory path then
        (dotNames c).flatMap (fun name => paths w rest (Path.join path name)) ++
          ((children w path).filter (fits c)).flatMap (paths w rest)
      else []
where
  /-- The paths that components stand for at any of some places: the first component is compared
  with the last name of each. Directories alone are stood for by two stars at the end. -/
  deep (w : Workspace) : List Component → List String → List String
    | [], _ => []
    | c :: rest, places =>
      if isDeep c then deep w rest places
      else (places.filter (fits c)).flatMap (paths w rest)

/-- The components of a pattern behind the slash for the root. A slash at the end adds none. -/
def components (cs : List Char) : List (List Char) :=
  let parts := Text.pieces '/' cs
  if parts.getLast? = some [] then parts.dropLast else parts

/-- The paths of the files that a pattern stands for, in the order of the walk. -/
def expand (w : Workspace) (pattern : List Char) : Except PatternFault (List String) := do
  let _ ← Glob.parse pattern
  let (start, rest) := match pattern with
    | '/' :: rest => ("/", rest)
    | rest => (".", rest)
  let cs ← (components rest).mapM Glob.parse
  if pattern.getLast? = some '/' then return []
  return (paths w cs start).filter w.isFile

end PromptOutline.Walk
