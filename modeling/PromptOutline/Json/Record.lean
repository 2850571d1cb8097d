import PromptOutline.Json

/-!
# Records in JSON

A record is written as an object or as an array of its fields in order. In an object other fields
are ignored, and no field of the record may stand twice. In an array only fields at the end may be
missing.
-/

namespace PromptOutline.Json

/-- The number of arrays and objects that a value being read may be nested in. -/
def nestingLimit : Nat := 127

/-- The values of the named fields in an object, if every key is a text and no named field stands
twice. -/
def namedFields? (names : List String) (fields : List (Option String × Json)) :
    Option (List (Option Json)) := do
  let keys ← fields.mapM (·.1)
  if names.all fun name => keys.count name ≤ 1 then
    some (names.map fun name => fields.lookup (some name))
  else none

/-- The values of the fields of a record, of which an array must hold the first `least`. -/
def record? (names : List String) (least : Nat) : Json → Option (List (Option Json))
  | object fields => namedFields? names fields
  | array items =>
    if least ≤ items.length && items.length ≤ names.length then
      some (items.map some ++ List.replicate (names.length - items.length) none)
    else none
  | _ => none

/-- A text. -/
def text? : Json → Option String
  | text s => some s
  | _ => none

/-- A whole number of at most 64 bits. -/
def word? : Json → Option Nat
  | natural n => if n < UInt64.size then some n else none
  | _ => none

/-- The name of an alternative: a text, or an object that holds nothing but that name with `null`,
for which one more level of nesting must be allowed. -/
def alternative? (depth : Nat) : Json → Option String
  | text s => some s
  | object [(some key, null)] => if depth = 0 then none else some key
  | _ => none

end PromptOutline.Json
