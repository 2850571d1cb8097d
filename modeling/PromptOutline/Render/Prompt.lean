import PromptOutline.Document.Tree
import PromptOutline.Text.Lines

/-!
# Prompts

A prompt is the text handed to a language model: an explanation of the outline format, then the
sections. Each block is a keyword line, and what is below it is indented by four more spaces.
-/

namespace PromptOutline.Prompt

/-- Explains how the sections that follow it are to be read. -/
def preamble : String :=
  "The following is written in a language called Metaphor.

Metaphor has the structure of a document tree with branches and leaves being
prefixed by the keywords \"Role:\", \"Context:\" or \"Action:\".

These have an optional section name that will immediately follow them on the same line.
If this is missing then the section name is not defined.

After a keyword line the text may be indented to include an optional block of descriptive
text that explains the purpose of the block.  A block may also include one or more optional
child blocks inside them and that further clarify their parent block.

The indentation of the blocks indicates where in the tree the pieces appear.  For example a
\"Context:\" indented by 8 spaces is a child of the context above it that is indented by 4
spaces.  One indented 12 spaces would be a child of the block above it that is indented by
8 spaces.

If a \"Role:\" block exists then this is the role you should fulfil.
Please review all of the \"Context:\" blocks to understand what is required and then
process all of the items included in the \"Action:\" section.

When you process the actions please carefully ensure you do all of them accurately.  These
need to fulfil all the details described in the \"Context:\".  Ensure you complete all the
elements and do not include any placeholders.

"

/-- The spaces before a line at some depth. -/
def margin (depth : Nat) : List Char := List.replicate (4 * depth) ' '

/-- A line of text at some depth. An empty line has no margin. -/
def textLine (depth : Nat) (line : List Char) : List Char :=
  (if line = [] then [] else margin depth ++ line) ++ ['\n']

/-- The line that opens a block. -/
def headLine (depth : Nat) (kind : TokenKind) (name? : Option String) : List Char :=
  margin depth ++ kind.name.toList ++ [':'] ++
    (name?.map fun name => ' ' :: name.toList).getD [] ++ ['\n']

mutual

/-- The lines of a tree. Only blocks and text have lines of their own. -/
def lines (depth : Nat) : Tree → List Char
  | .node c cs =>
    if c.kind = .text then (Text.pieces '\n' c.value.toList).flatMap (textLine depth)
    else if c.kind.isBlock then
      headLine depth c.kind (Tree.node c cs).name? ++ linesAll (depth + 1) cs
    else []

/-- The lines of neighbouring trees. -/
def linesAll (depth : Nat) : List Tree → List Char
  | [] => []
  | t :: ts => lines depth t ++ linesAll depth ts

end

/-- The sections of a document, without an explanation. -/
def body (d : Document) : String := String.ofList (linesAll 0 d.trees)

/-- The prompt for a document. -/
def render (withPreamble : Bool) (d : Document) : String :=
  if withPreamble then preamble ++ body d else body d

end PromptOutline.Prompt
