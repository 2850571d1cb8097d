import PromptOutline.Diagnostic
import PromptOutline.Json.Reader
import PromptOutline.Json.Record
import PromptOutline.Snapshot

/-!
# Snapshots, tokens and diagnostics in JSON

A snapshot leaves out its form when there is none and its children when there are none. Reading
gives them back, so what was written reads as the same value, up to the depth that reading allows.
-/

namespace PromptOutline

namespace Snapshot

mutual

/-- A snapshot as a JSON object. -/
def toJson : Snapshot → Json
  | node nodeType label line column form children =>
    .ofFields ([("node_type", .text nodeType), ("label", .text label), ("line", .natural line),
        ("column", .natural column)] ++
      (form.map fun f => ("form", Json.text f.name)).toList ++
      (if children.isEmpty then [] else [("children", .array (toJsons children))]))

/-- Snapshots as JSON objects. -/
def toJsons : List Snapshot → List Json
  | [] => []
  | s :: rest => toJson s :: toJsons rest

end

/-- An absent form is missing or `null`. -/
def readForm? (depth : Nat) : Option Json → Option (Option TextForm)
  | none => some none
  | some .null => some none
  | some j => do
    let name ← j.alternative? depth
    let form ← TextForm.ofName? name
    some (some form)

/-- The snapshot that a JSON value stands for, given how the items of its children are read. -/
def ofRecord? (depth : Nat) (readItems? : List Json → Option (List Snapshot)) (j : Json) :
    Option Snapshot := do
  match ← j.record? ["node_type", "label", "line", "column", "form", "children"] 4 with
  | [some nodeType, some label, some line, some column, form, children] =>
    let below ← match children with
      | none => some []
      | some (.array items) => readItems? items
      | some _ => none
    some (.node (← nodeType.text?) (← label.text?) (← line.word?) (← column.word?)
      (← readForm? depth form) below)
  | _ => none

/-- The snapshot that a JSON value stands for, inside at most `depth` more levels of nesting: one
for the snapshot and one for the array of its children. -/
def ofJson? : (depth : Nat) → Json → Option Snapshot
  | 0, _ => none
  | 1, j => ofRecord? 0 (fun _ => none) j
  | inner + 2, j => ofRecord? (inner + 1) (fun items => items.mapM (ofJson? inner)) j

end Snapshot

namespace Sections

/-- The sections as a JSON object; a section that is not there is `null`. -/
def toJson (s : Sections) : Json :=
  let write (section? : Option Snapshot) := (section?.map Snapshot.toJson).getD .null
  .ofFields [("role", write s.role), ("context", write s.context), ("action", write s.action)]

/-- The section that a field stands for. -/
def readSection? (depth : Nat) : Option Json → Option (Option Snapshot)
  | none => some none
  | some .null => some none
  | some j => (Snapshot.ofJson? depth j).map some

/-- The sections that a JSON value stands for. -/
def ofJson? (j : Json) : Option Sections := do
  match ← j.record? ["role", "context", "action"] 3 with
  | [role, context, action] =>
    let depth := Json.nestingLimit - 1
    some { role := ← readSection? depth role, context := ← readSection? depth context,
           action := ← readSection? depth action }
  | _ => none

/-- The sections that a text stands for. -/
def parse? (s : String) : Option Sections := (Json.parse? s).bind ofJson?

end Sections

namespace Token

/-- A token as a JSON object. -/
def toJson (t : Token) : Json :=
  .ofFields [("kind", .text t.kind.name), ("text", .text t.text), ("raw_line", .text t.rawLine),
    ("filename", .text t.fileName), ("line", .natural t.line), ("column", .natural t.column)]

/-- The token that a JSON value stands for, inside at most `depth` more levels of nesting. -/
def ofJson? (depth : Nat) (j : Json) : Option Token := do
  match depth, ← j.record? ["kind", "text", "raw_line", "filename", "line", "column"] 6 with
  | inner + 1, [some kind, some text, some rawLine, some fileName, some line, some column] =>
    some { kind := ← TokenKind.ofName? (← kind.alternative? inner), text := ← text.text?,
           rawLine := ← rawLine.text?, fileName := ← fileName.text?, line := ← line.word?,
           column := ← column.word? }
  | _, _ => none

/-- Tokens as a text in JSON. -/
def renderAll (ts : List Token) : String := (Json.array (ts.map toJson)).pretty 0

/-- The tokens that a text in JSON stands for. -/
def parseAll? (s : String) : Option (List Token) := do
  match ← Json.parse? s with
  | .array items => items.mapM (ofJson? (Json.nestingLimit - 1))
  | _ => none

end Token

namespace Diagnostic

/-- A diagnostic as a JSON object. -/
def toJson (d : Diagnostic) : Json :=
  .ofFields [("message", .text d.message), ("filename", .text d.fileName),
    ("line", .natural d.line), ("column", .natural d.column), ("source_line", .text d.sourceLine)]

end Diagnostic

end PromptOutline
