import PromptOutline.Render.Prompt
import PromptOutline.Render.TreeView
import PromptOutline.Snapshot.Json
import PromptOutline.Yaml

/-!
# Formats by name

A registry holds formats, each with the function that writes a document in it. A format takes the
place of an earlier one with the same name.
-/

namespace PromptOutline

/-- Why a document could not be written. -/
inductive FormatFault where
  | unknown (name : String)
  | failed (reason : String)
  deriving Repr, DecidableEq

/-- The wording of a fault. -/
def FormatFault.message : FormatFault → String
  | unknown name => s!"Format '{name}' not found"
  | failed reason => s!"Serialization error: {reason}"

/-- A way to write documents. -/
structure Format where
  name : String
  description : String := ""
  write : Document → Except FormatFault String

namespace Format

/-- The document as a prompt. -/
def prompt (withPreamble : Bool) : Format where
  name := "prompt"
  description := "Sectioned prompt text, preceded by an explanation of Metaphor"
  write d := .ok (Prompt.render withPreamble d)

/-- The document as a drawing. -/
def treeView : Format where
  name := "treeviz"
  description := "Visual tree representation with indentation and Unicode icons"
  write d := .ok (TreeView.render false d)

/-- The document as JSON over several lines. -/
def json : Format where
  name := "json"
  description := "JSON snapshot of the Role, Context and Action trees"
  write d := .ok ((Sections.ofDocument d).toJson.pretty 0)

/-- The document as YAML. -/
def yaml : Format where
  name := "yaml"
  description := "YAML snapshot of the Role, Context and Action trees"
  write d := .ok (Yaml.render (Sections.ofDocument d).toJson)

end Format

/-- Formats, of which no two have the same name. -/
structure Registry where
  formats : List Format := []

namespace Registry

/-- The formats that are always there. -/
def standard : Registry := ⟨[Format.prompt true, Format.treeView, Format.json, Format.yaml]⟩

/-- Add a format in place of one with the same name. -/
def register (r : Registry) (f : Format) : Registry :=
  ⟨r.formats.filter (·.name != f.name) ++ [f]⟩

/-- The format with a name. -/
def get? (r : Registry) (name : String) : Option Format := r.formats.find? (·.name == name)

/-- Whether there is a format with a name. -/
def has (r : Registry) (name : String) : Bool := (r.get? name).isSome

/-- The names of all formats in the order of their bytes. -/
def names (r : Registry) : List String :=
  (r.formats.map Format.name).mergeSort fun a b => decide (a ≤ b)

/-- Write a document in the format with a name. -/
def write (r : Registry) (d : Document) (name : String) : Except FormatFault String :=
  match r.get? name with
  | none => .error (.unknown name)
  | some f => f.write d

end Registry

end PromptOutline
