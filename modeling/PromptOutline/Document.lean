import PromptOutline.Token

/-!
# Documents

A document holds nodes in the order they were added and up to three sections: the role, the context
and the action, each a node. A node knows its parent and its children by their places in that order.
The operations are total on any document, whether or not its links form trees.
-/

namespace PromptOutline

/-- What a text node holds: a line as it was read, a paragraph, or a fenced region. -/
inductive TextForm where
  | line
  | paragraph
  | fenced
  deriving Repr, DecidableEq, Inhabited

namespace TextForm

/-- All forms, each once. -/
def all : List TextForm := [line, paragraph, fenced]

/-- The written name of a form. -/
def name : TextForm → String
  | line => "line"
  | paragraph => "paragraph"
  | fenced => "fenced"

/-- The form with a given name. -/
def ofName? (s : String) : Option TextForm := all.find? (·.name == s)

/-- A form is found under its own name. -/
theorem ofName?_name (f : TextForm) : ofName? f.name = some f := by cases f <;> decide

end TextForm

/-- The place of a node in its document. -/
abbrev NodeId := Nat

/-- What a node holds, apart from its links. -/
structure Content where
  kind : TokenKind
  value : String
  line : Nat
  column : Nat
  form : TextForm := .line
  deriving Repr, DecidableEq, Inhabited

namespace Content

/-- What a token leaves in a document: a block keeps only its kind and place. -/
def ofToken (t : Token) : Content :=
  { kind := t.kind, value := if t.kind.isBlock then "" else t.text, line := t.line,
    column := t.column }

/-- Whether this is text. -/
def isText (c : Content) : Bool := c.kind == .text

/-- Whether this is an empty text. -/
def isBlank (c : Content) : Bool := c.isText && c.value.isEmpty

end Content

/-- A node with its links. -/
structure Node extends Content where
  parent : Option NodeId := none
  children : List NodeId := []
  deriving Repr, DecidableEq, Inhabited

/-- The three sections of a document, in the order they are written. -/
inductive Section where
  | role
  | context
  | action
  deriving Repr, DecidableEq, Inhabited

namespace Section

/-- The sections in the order they are written. -/
def all : List Section := [role, context, action]

/-- The kind of block that a section is. -/
def kind : Section → TokenKind
  | role => .role
  | context => .context
  | action => .action

/-- The section that a kind of block stands for. -/
def ofKind? : TokenKind → Option Section
  | .role => some role
  | .context => some context
  | .action => some action
  | _ => none

/-- A section is the one of its kind. -/
theorem ofKind?_kind (s : Section) : ofKind? s.kind = some s := by cases s <;> rfl

/-- The kinds that have a section are those of blocks. -/
theorem isSome_ofKind? (k : TokenKind) : (ofKind? k).isSome = k.isBlock := by cases k <;> rfl

end Section

/-- Nodes in the order they were added, and the sections among them. -/
structure Document where
  nodes : Array Node := #[]
  role : Option NodeId := none
  context : Option NodeId := none
  action : Option NodeId := none
  deriving Repr, DecidableEq, Inhabited

namespace Document

/-- The number of nodes, unreachable ones included. -/
def size (d : Document) : Nat := d.nodes.size

/-- The node at a place, or an empty one where there is none. -/
def node (d : Document) (id : NodeId) : Node := d.nodes[id]?.getD default

/-- Change the node at a place. -/
def modify (d : Document) (id : NodeId) (f : Node → Node) : Document :=
  { d with nodes := d.nodes.modify id f }

/-- Add a node without links, and give its place. -/
def add (d : Document) (c : Content) : Document × NodeId :=
  ({ d with nodes := d.nodes.push { toContent := c } }, d.nodes.size)

/-- Put a node behind the other children of a parent. -/
def append (d : Document) (parent child : NodeId) : Document :=
  (d.modify child fun n => { n with parent := some parent }).modify parent fun n =>
    { n with children := n.children ++ [child] }

/-- Give a node other children. The children it had lose their parent, and the new ones gain it. -/
def replaceChildren (d : Document) (parent : NodeId) (children : List NodeId) : Document :=
  let released := (d.node parent).children.foldl
    (fun d id => d.modify id fun n => { n with parent := none }) d
  let claimed := children.foldl
    (fun d id => d.modify id fun n => { n with parent := some parent }) released
  claimed.modify parent fun n => { n with children }

/-- The node of a section. -/
def root? (d : Document) : Section → Option NodeId
  | .role => d.role
  | .context => d.context
  | .action => d.action

/-- Make a node the section of a kind, unless that section is there already or the kind is not one
of a block; also say whether it was done. -/
def setRoot (d : Document) (kind : TokenKind) (id : NodeId) : Document × Bool :=
  match Section.ofKind? kind with
  | none => (d, false)
  | some s =>
    if (d.root? s).isSome then (d, false)
    else match s with
      | .role => ({ d with role := some id }, true)
      | .context => ({ d with context := some id }, true)
      | .action => ({ d with action := some id }, true)

/-- The sections that are there, in the order they are written. -/
def roots (d : Document) : List NodeId := Section.all.filterMap d.root?

/-- Whether no section is there. -/
def isEmpty (d : Document) : Bool := d.roots.isEmpty

/-- The name of a node: the value of its first child, if that is the text of a keyword line. -/
def name? (d : Document) (id : NodeId) : Option String :=
  match (d.node id).children with
  | [] => none
  | first :: _ =>
    let n := d.node first
    if n.kind = .keywordText then some n.value else none

end Document

end PromptOutline
