import PromptOutline.Settings.KeyPath
import PromptOutline.Text.Lowercase
import PromptOutline.Toml.Reader

/-!
# Layers of settings

Settings are values under keys. A later layer is put over an earlier one: tables are joined key by
key, and everything else takes the place of what was there. Keys are compared in lower case. A value
knows the file it came from, if any; a table that was joined belongs to no file.
-/

namespace PromptOutline

/-- A setting that holds no others. -/
inductive Scalar where
  | null
  | bool (b : Bool)
  | integer (i : Int)
  | float (x : Binary)
  | text (s : String)
  deriving Repr, DecidableEq, Inhabited

/-- A setting with the file it came from. -/
inductive Setting where
  | scalar (origin : Option String) (value : Scalar)
  | list (origin : Option String) (items : List Setting)
  | table (origin : Option String) (fields : List (String × Setting))
  deriving Repr, Inhabited

namespace Setting

/-- The empty setting, which belongs to no file. -/
def null : Setting := scalar none .null

/-- The table without keys, which belongs to no file. -/
def emptyTable : Setting := table none []

/-- The fields of a table; none if this is no table. -/
def fields : Setting → List (String × Setting)
  | table _ fields => fields
  | _ => []

/-- A table as it is, anything else as the empty table. -/
def asTable : Setting → Setting
  | table origin fields => table origin fields
  | _ => emptyTable

/-- A list as it is, anything else as the empty list. -/
def asItems : Setting → Option String × List Setting
  | list origin items => (origin, items)
  | _ => (none, [])

/-- The setting under a key. -/
def get? (s : Setting) (key : String) : Option Setting := s.fields.lookup key

/-- Put a setting under a key of a table. -/
def setField (s : Setting) (key : String) (value : Setting) : Setting :=
  match s.asTable with
  | table origin fields =>
    if (fields.lookup key).isSome then
      table origin (fields.map fun (k, old) => if k = key then (k, value) else (k, old))
    else table origin (fields ++ [(key, value)])
  | other => other

mutual

/-- Put a setting under a name. A table is joined with what is there. -/
def put (s : Setting) (name : String) : Setting → Setting
  | table _ incoming =>
    let key := Text.lowercase name
    s.setField key (putAll ((s.asTable.get? key).getD emptyTable) incoming)
  | scalar origin value => s.setField (Text.lowercase name) (scalar origin value)
  | list origin items => s.setField (Text.lowercase name) (list origin items)

/-- Put settings under their names. -/
def putAll (s : Setting) : List (String × Setting) → Setting
  | [] => s
  | (name, value) :: rest => putAll (put s name value) rest

end

/-- The items of a list with room for a place, and where that place is. A place behind the end fills
the list up, and one before the start is added there. -/
def makeRoom (items : List Setting) (index : Int) : List Setting × Nat :=
  if 0 ≤ index then
    (items ++ List.replicate (index.toNat + 1 - items.length) null, index.toNat)
  else if index.natAbs ≤ items.length then (items, items.length - index.natAbs)
  else (List.replicate (index.natAbs - items.length) null ++ items, 0)

/-- Put a setting at the end of a path. What stands in the way gives way to tables and lists. -/
def assign : KeyPath → Setting → Setting → Setting
  | [], value, _ => value
  | [.child name], value, s => s.asTable.put name value
  | .child name :: rest, value, s =>
    let key := Text.lowercase name
    s.setField key (assign rest value ((s.asTable.get? key).getD null))
  | .place index :: rest, value, s =>
    let (origin, items) := s.asItems
    let (items, at_) := makeRoom items index
    list origin (items.set at_ (assign rest value (items[at_]?.getD null)))

mutual

/-- A TOML value as a setting of a file. -/
def ofToml (origin : Option String) : Toml.Value → Setting
  | .text s => scalar origin (.text s)
  | .integer i => scalar origin (.integer i)
  | .float x => scalar origin (.float x)
  | .bool b => scalar origin (.bool b)
  | .moment s => scalar origin (.text s)
  | .array items => list origin (ofTomls origin items)
  | .table fields => table origin (ofTomlFields origin fields)

/-- TOML values as settings of a file. -/
def ofTomls (origin : Option String) : List Toml.Value → List Setting
  | [] => []
  | v :: rest => ofToml origin v :: ofTomls origin rest

/-- TOML fields as settings of a file. -/
def ofTomlFields (origin : Option String) : List (String × Toml.Value) → List (String × Setting)
  | [] => []
  | (key, v) :: rest => (key, ofToml origin v) :: ofTomlFields origin rest

end

/-- Put the fields of a file over settings. A key that is a path leads to where the path leads. -/
def layer (s : Setting) (fields : List (String × Setting)) : Setting :=
  fields.foldl (fun s (key, value) =>
    assign ((KeyPath.parse? key).getD [.child key]) value s) s

end Setting

end PromptOutline
