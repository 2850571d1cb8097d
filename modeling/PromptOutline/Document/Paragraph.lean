import PromptOutline.Document
import PromptOutline.Text.Blank
import PromptOutline.Token.Embedding

/-!
# Paragraphs and fenced regions

A freshly read document has one text node for each line. Joining lines makes one node of every
paragraph and of every fenced region:

* an empty line ends a paragraph and is dropped;
* a line that starts with a fence opens a region, which takes every following line, empty or not, up
  to and with the next line that starts with a fence;
* a child that is no line ends whatever is open.

A node that joined lines is marked as a paragraph or a region, and only lines are joined.
-/

namespace PromptOutline.Document

/-- Whether a line opens or closes a fenced region. -/
def isFence (value : String) : Bool :=
  Embedding.fence.toList.isPrefixOf (Text.trimStart value.toList)

/-- The node that takes the next line. -/
inductive Region where
  | closed
  | paragraph (id : NodeId)
  | fenced (id : NodeId)
  deriving Repr, DecidableEq, Inhabited

/-- The state of a walk over the children of a node. -/
structure Joining where
  document : Document
  /-- The children kept so far, in order. -/
  kept : List NodeId := []
  region : Region := .closed
  deriving Repr, DecidableEq, Inhabited

namespace Joining

/-- Add a line to the value of a node. -/
def join (j : Joining) (target : NodeId) (line : String) : Joining :=
  { j with document := j.document.modify target fun n =>
      { n with value := n.value ++ "\n" ++ line } }

/-- Keep a child that opens a paragraph or a region. -/
def start (j : Joining) (child : NodeId) (form : TextForm) (region : Region) : Joining :=
  { document := j.document.modify child fun n => { n with form },
    kept := j.kept ++ [child], region }

/-- Take one child. -/
def step (j : Joining) (child : NodeId) : Joining :=
  let n := j.document.node child
  if !n.isText || n.form != .line then { j with kept := j.kept ++ [child], region := .closed }
  else match j.region with
    | .fenced target =>
      let joined := j.join target n.value
      if isFence n.value then { joined with region := .closed } else joined
    | region =>
      if n.value.isEmpty then { j with region := .closed }
      else if isFence n.value then j.start child .fenced (.fenced child)
      else match region with
        | .paragraph target => j.join target n.value
        | _ => j.start child .paragraph (.paragraph child)

end Joining

/-- Join the lines among the children of one node. -/
def joinChildren (d : Document) (id : NodeId) (children : List NodeId) : Document :=
  let j := children.foldl Joining.step { document := d }
  j.document.replaceChildren id j.kept

/-- Join lines below a node, to a depth of as many steps: first below its children that are no text,
then among its children. -/
def joinLinesTo : (depth : Nat) → Document → NodeId → Document
  | 0, d, _ => d
  | depth + 1, d, id =>
    let children := (d.node id).children
    let below := children.foldl
      (fun d child => if (d.node child).isText then d else joinLinesTo depth d child) d
    below.joinChildren id children

/-- Join lines everywhere below a node. -/
def joinLinesBelow (d : Document) (id : NodeId) : Document := joinLinesTo d.size d id

/-- Join lines in every section. -/
def joinLines (d : Document) : Document := d.roots.foldl joinLinesBelow d

end PromptOutline.Document
