import PromptOutline.Toml.Scalar
import PromptOutline.Toml.Table

/-!
# Reading TOML

A document is a sequence of lines: blank ones, comments, keys with values, and headings of tables.
-/

namespace PromptOutline.Toml

/-- The characters of a bare key. -/
def isKeyChar (c : Char) : Bool := c.isAlphanum || c == '_' || c == '-'

/-- One part of a key. -/
def readKeyPart (cs : List Char) : Option (String × List Char) :=
  match cs with
  | '"' :: rest =>
    (readBasic (rest.length + 1) rest).map fun (body, rest) => (String.ofList body, rest)
  | '\x27' :: rest => (readLiteral rest).map fun (body, rest) => (String.ofList body, rest)
  | _ =>
    match cs.span isKeyChar with
    | ([], _) => none
    | (name, rest) => some (String.ofList name, rest)

/-- The number of parts that a key has to stay below, and the depth that values have to. -/
def depthLimit : Nat := 80

/-- The parts of a key, with dots between them. -/
def readKeyParts : (fuel : Nat) → List Char → Option (List String × List Char)
  | 0, _ => none
  | fuel + 1, cs => do
    let (part, rest) ← readKeyPart (skipBlanks cs)
    match skipBlanks rest with
    | '.' :: rest => do
      let (parts, rest) ← readKeyParts fuel rest
      some (part :: parts, rest)
    | rest => some ([part], rest)

/-- A key as the parts before the last one and the last one. -/
def readKey (cs : List Char) : Option ((List String × String) × List Char) := do
  let (parts, rest) ← readKeyParts (cs.length + 1) cs
  let last ← parts.getLast?
  if parts.length < depthLimit then some ((parts.dropLast, last), rest) else none

/-- The characters of a comment. -/
def isCommentChar (c : Char) : Bool := c == '\t' || 0x20 ≤ c.toNat

/-- Drop a comment, if there is one. -/
def skipComment : List Char → List Char
  | '#' :: rest => rest.dropWhile isCommentChar
  | rest => rest

/-- Drop blanks, comments and line ends. -/
def skipSpace : (fuel : Nat) → List Char → List Char
  | 0, cs => cs
  | fuel + 1, cs =>
    let behind := skipComment (skipBlanks cs)
    match afterNewline? behind with
    | some rest => skipSpace fuel rest
    | none => if (skipBlanks cs).head? = some '#' then cs else behind

/-- Drop blanks, comments and line ends inside an array. -/
def skipInside (cs : List Char) : List Char := skipSpace (cs.length + 1) cs

mutual

/-- A value, inside at most `depth` more levels. -/
def readValue : (fuel depth : Nat) → List Char → Option (Value × List Char)
  | 0, _, _ => none
  | fuel + 1, depth, cs =>
    match cs with
    | '[' :: rest =>
      match depth with
      | 0 => none
      | inner + 1 => do
        let (items, rest) ← readItems fuel inner (skipInside rest)
        some (.array items, rest)
    | '\x7b' :: rest =>
      match depth with
      | 0 => none
      | inner + 1 =>
        match skipBlanks rest with
        | '\x7d' :: rest => some (.table [], rest)
        | rest => do
          let (items, rest) ← readPairs fuel inner [] rest
          some (.table (Item.toFields items), rest)
    | _ => readScalar cs

/-- The items of an array up to its closing bracket; a comma may stand before it. -/
def readItems : (fuel depth : Nat) → List Char → Option (List Value × List Char)
  | 0, _, _ => none
  | fuel + 1, depth, cs =>
    match cs with
    | ']' :: rest => some ([], rest)
    | _ => do
      let (item, rest) ← readValue fuel depth cs
      match skipInside rest with
      | ',' :: rest => do
        let (items, rest) ← readItems fuel depth (skipInside rest)
        some (item :: items, rest)
      | ']' :: rest => some ([item], rest)
      | _ => none

/-- The keys with values of a table on one line, up to its closing brace. -/
def readPairs : (fuel depth : Nat) → Items → List Char → Option (Items × List Char)
  | 0, _, _, _ => none
  | fuel + 1, depth, items, cs => do
    let ((path, key), rest) ← readKey cs
    let rest ← afterChar? '=' rest
    let (v, rest) ← readValue fuel depth (skipBlanks rest)
    let items ← items.insertDotted path key v
    match skipBlanks rest with
    | ',' :: rest => readPairs fuel depth items rest
    | '\x7d' :: rest => some (items, rest)
    | _ => none

end

/-- A document being read, with the path of the table that keys go to. -/
structure Draft where
  items : Items := []
  path : List String := []
  deriving Repr, Inhabited

/-- A key with a value. -/
def readPair (d : Draft) (cs : List Char) : Option (Draft × List Char) := do
  let ((path, key), rest) ← readKey cs
  let rest ← afterChar? '=' rest
  let (v, rest) ← readValue (2 * rest.length + 2) (depthLimit - 1) (skipBlanks rest)
  let items ← d.items.atHeader d.path (Items.insertDotted path key v)
  some ({ d with items }, rest)

/-- The heading of a table or of one more table of an array. -/
def readHeading (d : Draft) (cs : List Char) : Option (Draft × List Char) :=
  match cs with
  | '[' :: '[' :: rest => do
    let ((path, key), rest) ← readKey rest
    let rest ← afterChar? ']' rest
    let rest ← afterChar? ']' rest
    let items ← d.items.atHeader path (Items.headArray key)
    some ({ items, path := path ++ [key] }, rest)
  | '[' :: rest => do
    let ((path, key), rest) ← readKey rest
    let rest ← afterChar? ']' rest
    let items ← d.items.atHeader path (Items.headTable key)
    some ({ items, path := path ++ [key] }, rest)
  | _ => none

/-- The lines of a document. -/
def readLines : (fuel : Nat) → Draft → List Char → Option Draft
  | 0, _, _ => none
  | fuel + 1, d, cs => do
    let (d, rest) ← match skipBlanks cs with
      | [] => some (d, [])
      | c :: rest =>
        if c = '#' || c = '\n' || c = '\r' then some (d, c :: rest)
        else if c = '[' then readHeading d (c :: rest)
        else readPair d (c :: rest)
    let rest := skipComment (skipBlanks rest)
    if rest.isEmpty then some d
    else do
      let rest ← afterNewline? rest
      readLines fuel d rest

/-- The fields of the table that a text stands for. -/
def parse? (s : String) : Option (List (String × Value)) :=
  let cs := match s.toList with
    | '\uFEFF' :: rest => rest
    | cs => cs
  (readLines (cs.length + 1) {} cs).map fun d => Item.toFields d.items

end PromptOutline.Toml
