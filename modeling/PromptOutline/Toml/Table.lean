import PromptOutline.Toml.Value

/-!
# Tables under construction

A table is written piece by piece, and the rules of the format say which pieces may meet: no key is
set twice, a table is headed once, a table that dotted keys made is only extended by dotted keys,
and a value is never extended. A table knows whether it was only implied so far, and whether dotted
keys made it.
-/

namespace PromptOutline.Toml

/-- What stands under a key while a document is read. -/
inductive Item where
  | value (v : Value)
  | table (implied dotted : Bool) (items : List (String × Item))
  /-- The tables of an array, of which only the last can be extended; the others are finished. -/
  | tables (finished : List Value) (last : List (String × Item))
  deriving Repr, Inhabited

/-- The keys of a table with what stands under them. -/
abbrev Items := List (String × Item)

mutual

/-- The value that an item stands for once it is finished. -/
def Item.toValue : Item → Value
  | .value v => v
  | .table _ _ items => .table (Item.toFields items)
  | .tables finished last => .array (finished ++ [.table (Item.toFields last)])

/-- The fields of a table once it is finished. -/
def Item.toFields : List (String × Item) → List (String × Value)
  | [] => []
  | (key, item) :: rest => (key, item.toValue) :: Item.toFields rest

end

namespace Items

/-- Put an item under a key, in place of one that stands there. -/
def set (items : Items) (key : String) (item : Item) : Items :=
  if (items.lookup key).isSome then
    items.map fun (k, old) => if k = key then (k, item) else (k, old)
  else items ++ [(key, item)]

/-- Change the table at the end of a path of headed keys. Tables on the way are implied, and the
last table of an array stands for the array. -/
def atHeader : (path : List String) → (Items → Option Items) → Items → Option Items
  | [], f, items => f items
  | key :: rest, f, items =>
    match items.lookup key with
    | none => (atHeader rest f []).map fun inner => items.set key (.table true false inner)
    | some (.table implied dotted inner) =>
      (atHeader rest f inner).map fun inner => items.set key (.table implied dotted inner)
    | some (.tables finished last) =>
      (atHeader rest f last).map fun last => items.set key (.tables finished last)
    | some (.value _) => none

/-- Set a new key. -/
def insertNew (key : String) (v : Value) (items : Items) : Option Items :=
  if (items.lookup key).isSome then none else some (items ++ [(key, .value v)])

/-- Set a dotted key. It goes into a table that dotted keys made, on a way that passes no headed
table. -/
def insertDotted : (path : List String) → (key : String) → Value → Items → Option Items
  | [], key, v, items => insertNew key v items
  | step :: rest, key, v, items =>
    match items.lookup step with
    | none => (insertDotted rest key v []).map fun inner => items.set step (.table true true inner)
    | some (.table true true inner) =>
      (insertDotted rest key v inner).map fun inner => items.set step (.table true true inner)
    | some (.table true false inner) =>
      if rest.isEmpty then none
      else (insertDotted rest key v inner).map fun inner => items.set step (.table true false inner)
    | some (.table false _ _) => none
    | some (.tables finished last) =>
      if rest.isEmpty then none
      else (insertDotted rest key v last).map fun last => items.set step (.tables finished last)
    | some (.value _) => none

/-- Head a table: it is new, or was only implied by the headings of other tables. -/
def headTable (key : String) (items : Items) : Option Items :=
  match items.lookup key with
  | none => some (items.set key (.table false false []))
  | some (.table true false inner) => some (items.set key (.table false false inner))
  | some _ => none

/-- Head one more table of an array. -/
def headArray (key : String) (items : Items) : Option Items :=
  match items.lookup key with
  | none => some (items.set key (.tables [] []))
  | some (.tables finished last) =>
    some (items.set key (.tables (finished ++ [.table (Item.toFields last)]) []))
  | some _ => none

end Items

end PromptOutline.Toml
