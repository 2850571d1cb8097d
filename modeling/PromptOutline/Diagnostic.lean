import PromptOutline.Token

/-!
# Diagnostics

A diagnostic is one problem of an outline with its place. It is shown with the line it was found on
and a caret over the column.
-/

namespace PromptOutline

/-- A problem and its place. Line zero stands for a file as a whole. -/
structure Diagnostic where
  message : String
  fileName : String
  line : Nat
  column : Nat
  sourceLine : String
  deriving Repr, DecidableEq, Inhabited

namespace Diagnostic

/-- A problem at a token. -/
def ofToken (message : String) (t : Token) : Diagnostic :=
  { message, fileName := t.fileName, line := t.line, column := t.column, sourceLine := t.rawLine }

/-- A problem with a whole file. -/
def ofFile (message fileName : String) : Diagnostic :=
  { message, fileName, line := 0, column := 0, sourceLine := "" }

/-- Whether the problem has a place in its file. -/
def isPositioned (d : Diagnostic) : Bool := 0 < d.line

/-- The text that shows a problem to a reader. -/
def render (d : Diagnostic) : String :=
  if d.isPositioned then
    let pad := String.ofList (List.replicate (d.column - 1) ' ')
    let heading := s!"{d.message}: line {d.line}, column {d.column}, file {d.fileName}"
    s!"{heading}\n{pad}|\n{pad}v\n{d.sourceLine}"
  else s!"{d.message}: file {d.fileName}"

/-- One line about a list of problems. -/
def summary (ds : List Diagnostic) : String :=
  s!"{ds.length} syntax error(s), first: " ++ (ds.head?.map message).getD ""

/-- Whether some problem has exactly this message. -/
def hasMessage (ds : List Diagnostic) (message : String) : Bool :=
  ds.any (·.message == message)

end Diagnostic

end PromptOutline
