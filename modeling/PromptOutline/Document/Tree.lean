import PromptOutline.Document

/-!
# The tree view of a document

A tree is what can be reached from one node. `Document.tree` follows child links to a depth of as
many steps as the document has nodes, which reaches every node of a document whose links have no
cycle.
-/

namespace PromptOutline

/-- A node with everything below it. -/
inductive Tree where
  | node (content : Content) (children : List Tree)
  deriving Repr, Inhabited

namespace Tree

/-- What the top node holds. -/
def content : Tree → Content
  | node c _ => c

/-- The trees directly below the top node. -/
def children : Tree → List Tree
  | node _ cs => cs

/-- The name of a tree: the value of its first child, if that is the text of a keyword line. -/
def name? : Tree → Option String
  | node _ (node c _ :: _) => if c.kind = .keywordText then some c.value else none
  | node _ [] => none

mutual

/-- The contents of a tree from the top down, each with its depth. -/
def preorder (depth : Nat) : Tree → List (Nat × Content)
  | node c cs => (depth, c) :: preorderAll (depth + 1) cs

/-- The contents of neighbouring trees. -/
def preorderAll (depth : Nat) : List Tree → List (Nat × Content)
  | [] => []
  | t :: ts => preorder depth t ++ preorderAll depth ts

end

end Tree

namespace Document

/-- What can be reached from a node in at most `depth` steps. -/
def treeTo (d : Document) : (depth : Nat) → NodeId → Tree
  | 0, id => .node (d.node id).toContent []
  | depth + 1, id =>
    .node (d.node id).toContent ((d.node id).children.map (d.treeTo depth))

/-- The tree below a node. -/
def tree (d : Document) (id : NodeId) : Tree := d.treeTo d.size id

/-- The trees of the sections that are there, in the order they are written. -/
def trees (d : Document) : List Tree := d.roots.map d.tree

/-- The contents of all sections from the top down, each with its depth. -/
def listing (d : Document) : List (Nat × Content) := Tree.preorderAll 0 d.trees

end Document

end PromptOutline
