import PromptOutline.Settings

/-!
# Arguments of the command

The words of a command line are read from left to right. A word that starts with dashes is a switch,
in its long form (`--format`) or as letters behind one dash (`-f`); the value of a switch stands in
the same word or is the next one. The only other word is the input. After `--` no word is a switch.
-/

namespace PromptOutline.Command

/-- What can be asked for beside the input. -/
inductive Switch where
  | output
  | searchPath
  | format
  | settings
  | width
  | noPreamble
  | help
  | version
  deriving Repr, DecidableEq, Inhabited

namespace Switch

/-- Whether a value belongs to the switch. -/
def takesValue : Switch → Bool
  | noPreamble | help | version => false
  | _ => true

/-- The switch that a letter stands for. -/
def ofLetter? : Char → Option Switch
  | 'o' => some output
  | 'I' => some searchPath
  | 'f' => some format
  | 'c' => some settings
  | 'h' => some help
  | 'V' => some version
  | _ => none

/-- The switch that a word behind two dashes stands for. No word can be shortened. -/
def ofName? : String → Option Switch
  | "outputFile" | "output" => some output
  | "include" => some searchPath
  | "format" => some format
  | "config" => some settings
  | "indent-spaces" => some width
  | "no-preamble" => some noPreamble
  | "help" => some help
  | "version" => some version
  | _ => none

/-- The long form of a switch. -/
def name : Switch → String
  | output => "outputFile"
  | searchPath => "include"
  | format => "format"
  | settings => "config"
  | width => "indent-spaces"
  | noPreamble => "no-preamble"
  | help => "help"
  | version => "version"

/-- A switch is found under its own name. -/
theorem ofName?_name (s : Switch) : ofName? s.name = some s := by cases s <;> rfl

end Switch

/-- Why a command line cannot be followed. -/
inductive UsageFault where
  | unknownSwitch (word : String)
  | unexpectedWord (word : String)
  | repeated (switch : Switch)
  | missingValue (switch : Switch)
  | unwantedValue (switch : Switch)
  | badValue (switch : Switch) (value : String)
  | missingInput
  deriving Repr, DecidableEq

/-- The wording of a fault. -/
def UsageFault.message : UsageFault → String
  | unknownSwitch word | unexpectedWord word => s!"unexpected argument '{word}' found"
  | repeated s => s!"the argument '--{s.name}' cannot be used multiple times"
  | missingValue s => s!"a value is required for '--{s.name}' but none was supplied"
  | unwantedValue s => s!"no value may be given for '--{s.name}'"
  | badValue s value => s!"invalid value '{value}' for '--{s.name}'"
  | missingInput => "the following required arguments were not provided:\n  <input>"

/-- Why reading the words stops before their end. -/
inductive Stop where
  | help
  | version
  | fault (f : UsageFault)
  deriving Repr, DecidableEq

/-- What the words ask for, beside the input. -/
structure Choices where
  output : Option String := none
  /-- Directories to search, in the order they were given. -/
  searchPaths : List String := []
  format : Option OutputFormat := none
  /-- A settings file. -/
  settings : Option String := none
  /-- The number of spaces for one level, from 1 to 255. -/
  width : Option Nat := none
  noPreamble : Bool := false
  deriving Repr, DecidableEq, Inhabited

/-- A whole command line. -/
structure Arguments extends Choices where
  input : String
  deriving Repr, DecidableEq, Inhabited

/-- A number of spaces: digits that may follow a plus. -/
def widthOfText? (s : String) : Option Nat :=
  (Settings.wordOfText? s).filter fun n => 1 ≤ n && n ≤ 255

namespace Choices

/-- Fill a place that can be filled only once. -/
def fill {α : Type} (s : Switch) (place : Option α) (value : Except Stop α) :
    Except Stop (Option α) :=
  match place with
  | some _ => .error (.fault (.repeated s))
  | none => value.map some

/-- A value in the form that its switch needs. -/
def checked {α : Type} (s : Switch) (value : String) (parsed : Option α) : Except Stop α :=
  match parsed with
  | some a => .ok a
  | none => .error (.fault (.badValue s value))

/-- Take the value of a switch. A switch without value has none to take. -/
def take (c : Choices) (s : Switch) (value : String) : Except Stop Choices :=
  match s with
  | .output => (fill s c.output (.ok value)).map fun output => { c with output }
  | .searchPath => .ok { c with searchPaths := c.searchPaths ++ [value] }
  | .format => (fill s c.format (checked s value (OutputFormat.ofName? value))).map fun format =>
      { c with format }
  | .settings => (fill s c.settings (.ok value)).map fun settings => { c with settings }
  | .width => (fill s c.width (checked s value (widthOfText? value))).map fun width =>
    { c with width }
  | .noPreamble | .help | .version => .error (.fault (.unwantedValue s))

/-- Follow a switch that has no value. -/
def raise (c : Choices) (s : Switch) : Except Stop Choices :=
  match s with
  | .noPreamble =>
    if c.noPreamble then .error (.fault (.repeated s)) else .ok { c with noPreamble := true }
  | .help => .error .help
  | .version => .error .version
  | _ => .error (.fault (.missingValue s))

end Choices

/-- One word of a command line by its shape. -/
inductive Word where
  /-- The mark after which no word is a switch. -/
  | divider
  | long (name : String) (value : Option String)
  /-- Letters behind one dash, at least one. -/
  | letters (cs : List Char)
  | plain (s : String)
  deriving Repr, DecidableEq

/-- The shape of a word. A dash alone is a plain word. -/
def Word.ofText (s : String) : Word :=
  match s.toList with
  | ['-', '-'] => .divider
  | '-' :: '-' :: body =>
    let name := String.ofList (body.takeWhile (· != '='))
    match body.dropWhile (· != '=') with
    | [] => .long name none
    | _ :: value => .long name (some (String.ofList value))
  | '-' :: c :: cs => .letters (c :: cs)
  | _ => .plain s

/-- How far a command line has been read. -/
structure Reading where
  choices : Choices := {}
  input : Option String := none
  /-- The switch whose value is the next word. -/
  pending : Option Switch := none
  /-- Whether the divider has been read. -/
  divided : Bool := false
  deriving Repr, DecidableEq, Inhabited

namespace Reading

/-- Take the value of a switch. -/
def take (r : Reading) (s : Switch) (value : String) : Except Stop Reading :=
  (r.choices.take s value).map fun choices => { r with choices, pending := none }

/-- No switch may be left without its value. -/
def settled (r : Reading) : Except Stop Reading :=
  match r.pending with
  | some s => .error (.fault (.missingValue s))
  | none => .ok r

/-- Take a word that is no switch as the input. -/
def takeInput (r : Reading) (s : String) : Except Stop Reading :=
  match r.input with
  | some _ => .error (.fault (.unexpectedWord s))
  | none => .ok { r with input := some s }

/-- Follow letters behind one dash. What follows the letter of a switch with a value is that value,
with or without an equals sign before it. -/
def takeLetters (r : Reading) : List Char → Except Stop Reading
  | [] => .ok r
  | c :: cs =>
    match Switch.ofLetter? c with
    | none => .error (.fault (.unknownSwitch (String.ofList ['-', c])))
    | some s =>
      if s.takesValue then
        match cs with
        | [] => .ok { r with pending := some s }
        | '=' :: value => r.take s (String.ofList value)
        | value => r.take s (String.ofList value)
      else do
        let choices ← r.choices.raise s
        takeLetters { r with choices } cs

/-- Follow a switch in its long form. -/
def takeLong (r : Reading) (name : String) (value : Option String) : Except Stop Reading :=
  match Switch.ofName? name with
  | none => .error (.fault (.unknownSwitch ("--" ++ name)))
  | some s =>
    match value, s.takesValue with
    | some v, _ => r.take s v
    | none, true => .ok { r with pending := some s }
    | none, false => (r.choices.raise s).map fun choices => { r with choices }

/-- Read one word. -/
def step (r : Reading) (word : String) : Except Stop Reading :=
  if r.divided then r.takeInput word
  else match Word.ofText word with
    | .divider => r.settled.map fun r => { r with divided := true }
    | .long name value => do (← r.settled).takeLong name value
    | .letters cs => do (← r.settled).takeLetters cs
    | .plain s =>
      match r.pending with
      | some switch => r.take switch s
      | none => r.takeInput s

/-- What a command line that has been read to its end asks for. -/
def finish (r : Reading) : Except Stop Arguments := do
  let r ← r.settled
  match r.input with
  | some input => .ok { r.choices with input }
  | none => .error (.fault .missingInput)

end Reading

/-- Read the words of a command line. -/
def Arguments.parse (words : List String) : Except Stop Arguments := do
  (← words.foldlM Reading.step {}).finish

end PromptOutline.Command
