import PromptOutline.Document.Builder
import PromptOutline.Document.Paragraph
import PromptOutline.Token.Outline

/-!
# Reading outlines into documents

The two ways in: an outline in a file of the workspace, and an outline given as text. The text
itself is not recorded as used, so it may include any file.
-/

namespace PromptOutline

/-- How outlines are read. -/
structure ReadOptions where
  /-- The number of spaces for one level. -/
  width : UInt64 := 4
  searchPaths : List String := []
  /-- Whether lines are joined to paragraphs and fenced regions. -/
  joinLines : Bool := true
  deriving Repr, DecidableEq, Inhabited

namespace Compile

/-- Read everything that the tokens of one outline lead to. -/
def readStream (w : Workspace) (width : UInt64) (s : Stream) : Except (List Diagnostic) Document :=
  let (events, outcome) := s.run w width
  Builder.build events outcome

/-- Read an outline given as text, one text node for each line. -/
def parseText (w : Workspace) (width : UInt64) (searchPaths : List String)
    (fileName source : String) : Except (List Diagnostic) Document :=
  readStream w width
    { sources := { searchPaths }, opened := [Outline.tokens width fileName source] }

/-- Read the outline in a file, one text node for each line. -/
def parseFile (w : Workspace) (width : UInt64) (searchPaths : List String) (entry : String) :
    Except (List Diagnostic) Document :=
  match Sources.load { searchPaths } w entry with
  | (_, .error fault) => .error [.ofFile fault.message entry]
  | (sources, .ok file) =>
    readStream w width { sources, opened := [Outline.tokens width file.name file.contents] }

/-- Join lines if that is asked for. -/
def finish (options : ReadOptions) (d : Document) : Document :=
  if options.joinLines then d.joinLines else d

/-- Read an outline given as text. -/
def text (w : Workspace) (options : ReadOptions) (fileName source : String) :
    Except (List Diagnostic) Document :=
  (parseText w options.width options.searchPaths fileName source).map (finish options)

/-- Read the outline in a file. -/
def file (w : Workspace) (options : ReadOptions) (entry : String) :
    Except (List Diagnostic) Document :=
  (parseFile w options.width options.searchPaths entry).map (finish options)

end Compile

end PromptOutline
