import PromptOutline.Text.Lines

/-!
# Paths

A path is the text that names a file, with names divided by slashes. These functions look at the
text alone; `FileTree` says which file a path leads to.
-/

namespace PromptOutline.Path

/-- Paths that start at the root. -/
def isAbsolute (path : String) : Bool := path.toList.head? == some '/'

/-- A path with another one below it: an absolute second path stands alone, and a slash is added
unless the first path is empty or ends in one. -/
def join (base path : String) : String :=
  if isAbsolute path then path
  else if base.isEmpty || base.toList.getLast? == some '/' then base ++ path
  else base ++ "/" ++ path

/-- The texts between slashes, empty ones included. -/
def parts (path : String) : List String := Text.splitAt '/' path

/-- The names along a path: its parts without the empty ones and those that stay in place. -/
def names (path : String) : List String :=
  (parts path).filter fun part => part != "" && part != "."

/-- The last name of a path, unless it leads upwards. -/
def fileName? (path : String) : Option String :=
  match (names path).getLast? with
  | some name => if name = ".." then none else some name
  | none => none

/-- What follows the last dot of a file name. A dot at the start of the name does not count. -/
def extension? (path : String) : Option String :=
  (fileName? path).bind fun name =>
    match (Text.splitAt '.' name).reverse with
    | ext :: before :: others => if before = "" && others.isEmpty then none else some ext
    | _ => none

/-- Whether a path names the directory it starts from. -/
def isHere (path : String) : Bool :=
  (parts path).head? == some "." && names path == []

/-- A name that an entry of a directory may have. -/
structure IsName (name : String) : Prop where
  nonempty : name ≠ ""
  here : name ≠ "."
  up : name ≠ ".."
  slash : '/' ∉ name.toList

instance : DecidablePred IsName := fun name =>
  decidable_of_iff (name ≠ "" ∧ name ≠ "." ∧ name ≠ ".." ∧ '/' ∉ name.toList)
    ⟨fun ⟨hempty, hhere, hup, hslash⟩ => ⟨hempty, hhere, hup, hslash⟩,
      fun h => ⟨h.nonempty, h.here, h.up, h.slash⟩⟩

end PromptOutline.Path
