import PromptOutline.Text.Lines

/-!
# JSON values

The data model of JSON as far as this library writes and reads it. Whole numbers without a sign are
`natural`; every other number keeps its written form.
-/

namespace PromptOutline

/-- A JSON value. -/
inductive Json where
  | null
  | bool (b : Bool)
  | natural (n : Nat)
  /-- A number that has a sign, a fraction or an exponent, as it was written. -/
  | decimal (lexeme : String)
  | text (s : String)
  /-- A quoted text with an unpaired surrogate, which is a literal but not a text. -/
  | unpaired
  | array (items : List Json)
  /-- An object with its fields in order. A key that is an unpaired literal is `none`. -/
  | object (fields : List (Option String × Json))
  deriving Repr, Inhabited

namespace Json

/-- An object with the given fields. -/
def ofFields (fields : List (String × Json)) : Json :=
  object (fields.map fun (key, value) => (some key, value))

/-- The digits of a number below sixteen. -/
def hexDigit (n : Nat) : Char := ("0123456789abcdef".toList)[n]?.getD '0'

/-- How a character is written inside quotes: the quote, the backslash and the characters below the
space are escaped, with a letter where there is one. -/
def escapeChar (c : Char) : List Char :=
  if c = '"' then ['\\', '"']
  else if c = '\\' then ['\\', '\\']
  else if c = '\n' then ['\\', 'n']
  else if c = '\r' then ['\\', 'r']
  else if c = '\t' then ['\\', 't']
  else if c = '\x08' then ['\\', 'b']
  else if c = '\x0c' then ['\\', 'f']
  else if c.toNat < 0x20 then
    ['\\', 'u', '0', '0', hexDigit (c.toNat / 16), hexDigit (c.toNat % 16)]
  else [c]

/-- A text in quotes. -/
def quote (s : String) : String :=
  String.ofList ('"' :: s.toList.flatMap escapeChar ++ ['"'])

mutual

/-- A value on one line, without spaces. -/
def compact : Json → String
  | null => "null"
  | bool b => if b then "true" else "false"
  | natural n => toString n
  | decimal lexeme => lexeme
  | text s => quote s
  | unpaired => "\"\\ud800\""
  | array items => "[" ++ Text.joinWith "," (compactItems items) ++ "]"
  | object fields => "\x7b" ++ Text.joinWith "," (compactFields fields) ++ "\x7d"

/-- The items of an array, each on one line. -/
def compactItems : List Json → List String
  | [] => []
  | item :: rest => compact item :: compactItems rest

/-- The fields of an object, each on one line. -/
def compactFields : List (Option String × Json) → List String
  | [] => []
  | (key, value) :: rest =>
    ((key.map quote).getD "\"\\ud800\"" ++ ":" ++ compact value) :: compactFields rest

end

/-- A new line with two spaces for each level. -/
def newLine (level : Nat) : String := String.ofList ('\n' :: List.replicate (2 * level) ' ')

/-- Items between brackets, each on a line of its own. Without items the brackets touch. -/
def bracketed (level : Nat) (opening closing : String) (items : List String) : String :=
  if items.isEmpty then opening ++ closing
  else opening ++ newLine (level + 1) ++ Text.joinWith ("," ++ newLine (level + 1)) items ++
    newLine level ++ closing

mutual

/-- A value over several lines, indented by two spaces for each level. -/
def pretty (level : Nat) : Json → String
  | array items => bracketed level "[" "]" (prettyItems (level + 1) items)
  | object fields => bracketed level "\x7b" "\x7d" (prettyFields (level + 1) fields)
  | null => compact null
  | bool b => compact (bool b)
  | natural n => compact (natural n)
  | decimal lexeme => compact (decimal lexeme)
  | text s => compact (text s)
  | unpaired => compact unpaired

/-- The items of an array, indented. -/
def prettyItems (level : Nat) : List Json → List String
  | [] => []
  | item :: rest => pretty level item :: prettyItems level rest

/-- The fields of an object, indented. -/
def prettyFields (level : Nat) : List (Option String × Json) → List String
  | [] => []
  | (key, value) :: rest =>
    ((key.map quote).getD "\"\\ud800\"" ++ ": " ++ pretty level value) :: prettyFields level rest

end

end Json

end PromptOutline
