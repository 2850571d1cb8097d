import PromptOutline.Check.TextMatch
import PromptOutline.Document.Tree
import PromptOutline.Text.Lines

/-!
# Checks on documents

A check describes what a document should hold. Running checks gives the report about the first one
that fails. A report names the node by the way to it from its section.
-/

namespace PromptOutline.Check

/-- What a node should hold. -/
inductive NodeCheck where
  | isKind (kind : TokenKind)
  | isText (value : String)
  | text (m : TextMatch)
  | lineCount (n : Nat)
  | form (f : TextForm)
  | name (expected : String)
  | noName
  | position (line column : Nat)
  | childCount (n : Nat)
  | textChildCount (n : Nat)
  | child (index : Nat) (checks : List NodeCheck)
  deriving Repr, Inhabited

/-- What a document should hold. -/
inductive DocumentCheck where
  | sectionCount (n : Nat)
  | noSection (kind : TokenKind)
  | inSection (s : Section) (checks : List NodeCheck)
  deriving Repr

/-- The report about two values that should be equal. -/
def unequal? (actual expected message : String) : Option String :=
  if actual = expected then none
  else
    some s!"assertion \x60left == right\x60 failed: {message}\n  left: {actual}\n right: {expected}"

/-- The name of a form with a capital letter. -/
def formTitle : TextForm → String
  | .line => "Line"
  | .paragraph => "Paragraph"
  | .fenced => "Fenced"

/-- The report about the kind of a node. -/
def kindFailure? (context : String) (t : Tree) (kind : TokenKind) : Option String :=
  let actual := t.content.kind.name
  unequal? actual kind.name s!"{context}: Expected {kind.name}, found {actual}"

mutual

/-- The report about a node that fails a check. -/
def nodeFailure? (context : String) (t : Tree) : NodeCheck → Option String
  | .isKind kind => kindFailure? context t kind
  | .isText value =>
    (kindFailure? context t .text).or ((TextMatch.exact value).failure? t.content.value context)
  | .text m => m.failure? t.content.value context
  | .lineCount n =>
    let actual := (Text.pieces '\n' t.content.value.toList).length
    unequal? (toString actual) (toString n) s!"{context}: Expected {n} lines, found {actual} lines"
  | .form f =>
    let actual := formTitle t.content.form
    let expected := formTitle f
    unequal? actual expected s!"{context}: Expected form {expected}, found {actual}"
  | .name expected =>
    match t.name? with
    | some actual => (TextMatch.exact expected).failure? actual context
    | none => some s!"{context}: Expected name '{expected}', but the block has none"
  | .noName => t.name?.map fun actual => s!"{context}: Expected no name, found '{actual}'"
  | .position line column =>
    let found := t.content
    unequal? s!"({found.line}, {found.column})" s!"({line}, {column})"
      s!"{context}: Expected position {line}:{column}, found {found.line}:{found.column}"
  | .childCount n =>
    let actual := t.children.length
    let kinds := Text.joinWith ", " (t.children.map fun c => c.content.kind.name)
    unequal? (toString actual) (toString n)
      s!"{context}: Expected {n} children, found {actual}: [{kinds}]"
  | .textChildCount n =>
    let actual := t.children.countP (·.content.isText)
    unequal? (toString actual) (toString n)
      s!"{context}: Expected {n} text children, found {actual}"
  | .child index checks =>
    match t.children[index]? with
    | some c => nodeFailures? s!"{context}.children[{index}]" c checks
    | none =>
      let count := t.children.length
      some s!"{context}: Child index {index} out of bounds (node has {count} children)"

/-- The report about the first of some checks that a node fails. -/
def nodeFailures? (context : String) (t : Tree) : List NodeCheck → Option String
  | [] => none
  | c :: rest => (nodeFailure? context t c).or (nodeFailures? context t rest)

end

/-- The report about a document that fails a check. -/
def documentFailure? (d : Document) : DocumentCheck → Option String
  | .sectionCount n =>
    let actual := d.roots.length
    unequal? (toString actual) (toString n) s!"Expected {n} sections, found {actual}"
  | .noSection kind =>
    if ((Section.ofKind? kind).bind d.root?).isSome then
      some s!"Expected no '{kind.name}' section"
    else none
  | .inSection s checks =>
    match d.root? s with
    | none => some s!"Expected a '{s.kind.name}' section, found none"
    | some id =>
      nodeFailures? (String.ofList (s.kind.name.toList.map Char.toLower)) (d.tree id) checks

/-- The report about the first of some checks that a document fails. -/
def failure? (d : Document) (checks : List DocumentCheck) : Option String :=
  checks.findSome? (documentFailure? d)

end PromptOutline.Check
