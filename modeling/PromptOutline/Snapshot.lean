import PromptOutline.Document.Tree

/-!
# Snapshots

A snapshot is a tree as plain data: the name of each node's kind, a label, and a place. The label of
a block is its name, and the label of anything else is its value.
-/

namespace PromptOutline

/-- A tree as plain data. -/
inductive Snapshot where
  | node (nodeType label : String) (line column : Nat) (form : Option TextForm)
      (children : List Snapshot)
  deriving Repr, Inhabited

namespace Snapshot

/-- The name of the kind of the top node. -/
def nodeType : Snapshot → String
  | node t _ _ _ _ _ => t

mutual

/-- The snapshot of a tree. -/
def ofTree : Tree → Snapshot
  | .node c cs =>
    .node c.kind.name
      (if c.kind.isBlock then ((Tree.node c cs).name?).getD "" else c.value)
      c.line c.column (if c.isText then some c.form else none) (ofTrees cs)

/-- The snapshots of neighbouring trees. -/
def ofTrees : List Tree → List Snapshot
  | [] => []
  | t :: ts => ofTree t :: ofTrees ts

end

end Snapshot

/-- The sections of a document as plain data. -/
structure Sections where
  role : Option Snapshot := none
  context : Option Snapshot := none
  action : Option Snapshot := none
  deriving Repr, Inhabited

namespace Sections

/-- The sections that are there, in the order they are written. -/
def present (s : Sections) : List Snapshot := [s.role, s.context, s.action].filterMap id

/-- The snapshot of a document. -/
def ofDocument (d : Document) : Sections :=
  let take (s : Section) := (d.root? s).map fun id => Snapshot.ofTree (d.tree id)
  { role := take .role, context := take .context, action := take .action }

end Sections

end PromptOutline
