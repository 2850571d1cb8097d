import PromptOutline.Toml.Scalar

/-!
# Paths of keys

A key path leads into settings: names with dots between them, and places of a list in brackets. A
place that is negative counts from the end of the list.
-/

namespace PromptOutline

/-- One step into settings. -/
inductive KeyStep where
  | child (name : String)
  | place (index : Int)
  deriving Repr, DecidableEq

/-- The steps of a path, from the outside in. -/
abbrev KeyPath := List KeyStep

namespace KeyPath

/-- The characters of a name. -/
def isNameChar (c : Char) : Bool := c.isAlphanum || c == ' ' || c == '_' || c == '-'

/-- A name at the start, and the rest. -/
def readName? (cs : List Char) : Option (String × List Char) :=
  match cs.span isNameChar with
  | ([], _) => none
  | (name, rest) => some (String.ofList name, rest)

/-- A place up to its closing bracket, and the rest. -/
def readPlace? (cs : List Char) : Option (Int × List Char) := do
  let cs := Toml.skipBlanks cs
  let (negative, cs) := match cs with
    | '-' :: rest => (true, rest)
    | rest => (false, rest)
  let (digits, rest) := cs.span Char.isDigit
  let rest ← Toml.afterChar? ']' (Toml.skipBlanks rest)
  let n : Int := Toml.ofDigits 10 digits
  let place := if negative then -n else n
  if digits.isEmpty || place < Int64.minValue.toInt || Int64.maxValue.toInt < place then none
  else some (place, rest)

/-- The steps behind the first name. -/
def readSteps? : (fuel : Nat) → List Char → Option KeyPath
  | _, [] => some []
  | 0, _ => none
  | fuel + 1, '.' :: rest => do
    let (name, rest) ← readName? rest
    let steps ← readSteps? fuel rest
    some (.child name :: steps)
  | fuel + 1, '[' :: rest => do
    let (index, rest) ← readPlace? rest
    let steps ← readSteps? fuel rest
    some (.place index :: steps)
  | _ + 1, _ => none

/-- The path that a text stands for. -/
def parse? (s : String) : Option KeyPath := do
  let (name, rest) ← readName? s.toList
  let steps ← readSteps? (rest.length + 1) rest
  some (.child name :: steps)

end KeyPath

end PromptOutline
