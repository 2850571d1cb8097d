import PromptOutline.Json
import PromptOutline.Yaml.Scalar

/-!
# Data in YAML

Plain data is written in block style: each field of an object on a line of its own, two spaces for
each level, and the items of an array marked by a dash at the column of their key.
-/

namespace PromptOutline.Yaml

/-- As many spaces as the column says. -/
def spaces (n : Nat) : String := String.ofList (List.replicate n ' ')

mutual

/-- A value behind a key whose column is `indent`, with the line end. -/
def value (indent : Nat) : Json → String
  | .null => " null\n"
  | .bool b => if b then " true\n" else " false\n"
  | .natural n => s!" {n}\n"
  | .decimal lexeme => s!" {lexeme}\n"
  | .text s => " " ++ scalar indent s
  | .unpaired => " ''\n"
  | .array [] => " []\n"
  | .array (first :: rest) => "\n" ++ items indent (first :: rest)
  | .object [] => " \x7b\x7d\n"
  | .object (first :: rest) =>
    "\n" ++ fields (indent + 2) (spaces (indent + 2)) (first :: rest)

/-- The items of an array whose dashes stand at the column `indent`. -/
def items (indent : Nat) : List Json → String
  | [] => ""
  | item :: rest =>
    (match item with
      | .object (first :: others) => fields (indent + 2) (spaces indent ++ "- ") (first :: others)
      | .array (first :: others) => spaces indent ++ "-\n" ++ items (indent + 2) (first :: others)
      | other => spaces indent ++ "-" ++ value indent other) ++ items indent rest

/-- The fields of an object at the column `indent`; `lead` stands before the first of them. -/
def fields (indent : Nat) (lead : String) : List (Option String × Json) → String
  | [] => ""
  | (key, v) :: rest =>
    lead ++ key.getD "" ++ ":" ++ value indent v ++ fields indent (spaces indent) rest

end

/-- A whole document. -/
def render : Json → String
  | .object (first :: rest) => fields 0 "" (first :: rest)
  | .array (first :: rest) => items 0 (first :: rest)
  | other => String.ofList ((value 0 other).toList.drop 1)

end PromptOutline.Yaml
