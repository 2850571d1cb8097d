import PromptOutline.Snapshot

/-!
# Tree drawings

A drawing shows one line for each node: connectors for its place in the tree, an icon for its kind,
and the start of its label.
-/

namespace PromptOutline.TreeView

/-- The number of characters of a label that are shown. -/
def labelWidth : Nat := 30

/-- The start of a text, with dots where more follows. -/
def truncate (width : Nat) (cs : List Char) : List Char :=
  if width < cs.length then cs.take width ++ ['.', '.', '.'] else cs

/-- A label on one line. -/
def label (s : String) : List Char :=
  truncate labelWidth (s.toList.map fun c => if c = '\n' then '⏎' else c)

/-- The icon for a node. -/
def icon (nodeType : String) (form : Option TextForm) : Char :=
  match TokenKind.ofName? nodeType with
  | some .role => '◉'
  | some .context => '§'
  | some .action => '▶'
  | some .keywordText => '⊤'
  | some .text =>
    match form with
    | some .paragraph => '¶'
    | some .fenced => '𝒱'
    | _ => '↵'
  | _ => '○'

/-- A line number with at least two digits. -/
def lineNumber (n : Nat) : List Char :=
  let digits := (toString n).toList
  List.replicate (2 - digits.length) '0' ++ digits ++ [' ']

/-- The connector of a node, which shows whether it is the last of its neighbours. -/
def connector (isLast : Bool) : List Char := if isLast then ['└', '─'] else ['├', '─']

/-- What stands below a connector on the lines of deeper nodes. -/
def rail (isLast : Bool) : List Char := if isLast then [' ', ' '] else ['│', ' ']

mutual

/-- The lines of a snapshot behind the rails of the nodes above it. -/
def lines (numbered : Bool) (rails : List Char) (isLast : Bool) : Snapshot → List (List Char)
  | .node nodeType name line _ form children =>
    ((if numbered then lineNumber line else []) ++ rails ++ connector isLast ++ [' '] ++
      [icon nodeType form, ' '] ++ label name) ::
      linesAll numbered (rails ++ rail isLast) children

/-- The lines of neighbouring snapshots. -/
def linesAll (numbered : Bool) (rails : List Char) : List Snapshot → List (List Char)
  | [] => []
  | s :: rest => lines numbered rails rest.isEmpty s ++ linesAll numbered rails rest

end

/-- The line above all others. -/
def header : List Char := "⧉ Document".toList

/-- The drawing of a document, with a line number before each line on demand. -/
def render (numbered : Bool) (d : Document) : String :=
  String.ofList ((header :: linesAll numbered [] (Sections.ofDocument d).present).flatMap
    (· ++ ['\n']))

/-- Whether a setting asks for line numbers: any word but one does. -/
def wantsNumbers (setting : Option String) : Bool := setting.any (· != "false")

end PromptOutline.TreeView
