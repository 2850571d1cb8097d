import PromptOutline.Command

/-!
# The program

The command works on a workspace. This module records the part of the disk that a command line can
lead to, runs the command on it, and puts what changed back on the disk. Symbolic links are
followed, but a workspace has none: what a link leads to is recorded where the link stands, so a
file with two names is two files, and including it under both of them is not noticed as a second
use. A file that cannot be read is recorded as locked.
-/

namespace PromptOutline.Disk

/-- The whole path of a location. -/
def wholePath (loc : Location) : String := "/" ++ Text.joinWith "/" loc

/-- What stands at a location of the disk. -/
def entry? (loc : Location) : IO (Option Entry) := do
  try
    let info ← (← IO.FS.realPath (wholePath loc)).metadata
    match info.type with
    | .dir => return some .directory
    | .file =>
      try return some (.file (← IO.FS.readBinFile (wholePath loc)).toList)
      catch _ => return some .locked
    | _ => return some (if loc = ["dev", "full"] then .full else .file [])
  catch _ => return none

/-- Record what stands at a location. -/
def record (w : Workspace) (loc : Location) : IO Workspace := do
  if (w.tree.get? loc).isSome then return w
  match ← entry? loc with
  | some e => return { w with tree := w.tree.set loc e }
  | none => return w

/-- Record what stands along the parts of a path, and say where they lead. -/
def recordParts (w : Workspace) (start : Location) (parts : List String) :
    IO (Workspace × Location) := do
  let mut w ← record w start
  let mut loc := start
  for part in parts do
    if part = ".." then loc := loc.dropLast
    else if part ≠ "" && part ≠ "." then loc := loc ++ [part]
    w ← record w loc
  return (w, loc)

/-- Record what stands along a path. -/
def recordPath (w : Workspace) (path : String) : IO Workspace := do
  return (← recordParts w (w.start path) (Path.parts path)).1

/-- Record everything below a directory, to a given depth. -/
def recordBelow (w : Workspace) (loc : Location) : Nat → IO Workspace
  | 0 => return w
  | depth + 1 => do
    let mut w := w
    if w.tree.get? loc == some .directory then
      for found in ← (← IO.FS.realPath (wholePath loc)).readDir do
        let inner := loc ++ [found.fileName]
        w ← record w inner
        w ← recordBelow w inner depth
    return w

/-- Record everything that a pattern can stand for. -/
def recordPattern (w : Workspace) (pattern : String) : IO Workspace := do
  let parts := Path.parts pattern
  let fixed := parts.takeWhile fun part => !part.toList.any fun c => "*?[".toList.contains c
  let (w, loc) ← recordParts w (w.start pattern) fixed
  if fixed.length < parts.length then recordBelow w loc 64 else return w

/-- The names that directives of one kind give in an outline. -/
def named (kind : TokenKind) (source : String) : List String :=
  let tokens := Outline.tokens 1 "" source
  (tokens.zip tokens.tail).filterMap fun (directive, name) =>
    if directive.kind = kind && name.kind = .keywordText then some name.text else none

/-- Record the outlines at some paths and everything that they name in turn. -/
partial def recordOutlines (s : Sources) (w : Workspace) : List String → List String → IO Workspace
  | _, [] => return w
  | done, path :: rest => do
    if done.contains path then recordOutlines s w done rest
    else
      let w ← recordPath w path
      match w.readText path with
      | .error _ => recordOutlines s w (path :: done) rest
      | .ok source =>
        let patterns := (named .embedFiles source).flatMap s.candidates
        let w ← patterns.foldlM recordPattern w
        recordOutlines s w (path :: done) (rest ++ (named .includeFile source).flatMap s.candidates)

/-- Record everything that a command line can lead to. -/
def survey (here : Location) (words : List String) : IO Workspace := do
  let (w, _) ← recordParts { here } [] here
  match Command.Arguments.parse words with
  | .error _ => return w
  | .ok a =>
    let files := Command.localSettings :: a.settings.toList
    let paths := files ++ files.map (· ++ ".toml") ++ a.searchPaths ++ a.output.toList
    let w ← paths.foldlM recordPath w
    match Settings.build w a.layers with
    | .error _ => recordPath w a.input
    | .ok s =>
      let w ← s.searchPaths.foldlM recordPath w
      recordOutlines { searchPaths := a.searchPaths ++ s.searchPaths } w [] [a.input]

/-- Put the files that changed on the disk. -/
def store (before after : FileTree) : IO Unit := do
  for (loc, e) in after.entries do
    match e with
    | .file bytes =>
      if before.get? loc != some e then IO.FS.writeBinFile (wholePath loc) ⟨bytes.toArray⟩
    | _ => pure ()

end PromptOutline.Disk

open PromptOutline in
/-- Run the command on the disk. -/
def main (words : List String) : IO UInt32 := do
  let here := Path.names (← IO.currentDir).toString
  let w ← Disk.survey here words
  let r := Command.run w words
  Disk.store w.tree r.workspace.tree
  (← IO.getStdout).putStr r.out
  (← IO.getStderr).putStr r.err
  return r.code.toUInt32
