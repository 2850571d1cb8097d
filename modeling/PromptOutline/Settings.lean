import PromptOutline.FileTree
import PromptOutline.Settings.Value
import PromptOutline.Text.Quoted

/-!
# Settings

The settings of the program come from layers: what is built in, files in the order they were named,
and overrides, which win over all files. The four settings are then read from the joined layers, and
each is converted to its type where that makes sense.
-/

namespace PromptOutline

/-- The formats that a document can be written in, with the dump of its tokens. -/
inductive OutputFormat where
  | prompt
  | treeviz
  | json
  | yaml
  | tokens
  deriving Repr, DecidableEq, Inhabited

namespace OutputFormat

/-- All formats, in order. -/
def all : List OutputFormat := [prompt, treeviz, json, yaml, tokens]

/-- The name of a format. -/
def name : OutputFormat → String
  | prompt => "prompt"
  | treeviz => "treeviz"
  | json => "json"
  | yaml => "yaml"
  | tokens => "tokens"

/-- The format with a given name. -/
def ofName? (s : String) : Option OutputFormat := all.find? (·.name == s)

/-- The format with a given name, in upper or lower case. -/
def ofNameAnyCase? (s : String) : Option OutputFormat :=
  ofName? (String.ofList (s.toList.map Char.toLower))

/-- A format is found under its own name. -/
theorem ofName?_name (f : OutputFormat) : ofName? f.name = some f := by cases f <;> decide

end OutputFormat

/-- A file that has to be read and was not: none was found, or the file system refuses the one that
was. -/
structure UnreadFile where
  path : String
  refusal : Option FileFault := none
  deriving Repr, DecidableEq

/-- Why settings could not be read. -/
inductive SettingsFault where
  /-- A setting has the wrong type. -/
  | wrongType (found expected key : String) (origin : Option String)
  /-- The settings do not have the right shape. -/
  | wrongShape (reason : String)
  /-- A file that has to be there is not, or cannot be read. -/
  | missingFile (file : UnreadFile)
  /-- A file is not written as it should be. -/
  | badFile (path : String)
  /-- The key of an override is no path. -/
  | badKey (key : String)
  deriving Repr, DecidableEq

/-- The wording of a fault. -/
def SettingsFault.message : SettingsFault → String
  | wrongType found expected key origin =>
    s!"invalid type: {found}, expected {expected} for key \x60{key}\x60" ++
      (origin.map (" in " ++ ·)).getD ""
  | wrongShape reason => reason
  | missingFile ⟨path, none⟩ => s!"configuration file \"{path}\" not found"
  | missingFile ⟨_, some fault⟩ => fault.message
  | badFile path => s!"configuration file \"{path}\" is not valid"
  | badKey key => s!"invalid key \"{key}\""

/-- The settings of the program. -/
structure Settings where
  /-- The number of spaces for one level. -/
  width : Nat
  searchPaths : List String
  format : OutputFormat
  preamble : Bool
  deriving Repr, DecidableEq, Inhabited

/-- One layer of settings. -/
inductive Layer where
  | file (path : String) (required : Bool)
  | override (key : String) (value : Setting)
  deriving Repr, Inhabited

namespace Settings

/-- What a setting is called in a report about its type. -/
def describe : Setting → String
  | .scalar _ .null => "unit value"
  | .scalar _ (.bool b) => s!"boolean \x60{b}\x60"
  | .scalar _ (.integer i) => s!"64-bit integer \x60{i}\x60"
  | .scalar _ (.float x) => s!"floating point \x60{x.toText}\x60"
  | .scalar _ (.text s) => "string " ++ Text.quoted s
  | .list _ _ => "sequence"
  | .table _ _ => "map"

/-- What a setting is called in a report about its shape. -/
def describeShape : Setting → String
  | .scalar _ (.integer i) => s!"integer \x60{i}\x60"
  | .scalar _ (.float x) => s!"floating point \x60{x.toPointText}\x60"
  | other => describe other

/-- The file that a setting came from. -/
def origin : Setting → Option String
  | .scalar origin _ => origin
  | .list origin _ => origin
  | .table origin _ => origin

/-- The fault of a setting that has another type than expected. -/
def mistyped (s : Setting) (expected key : String) : SettingsFault :=
  .wrongType (describe s) expected key (origin s)

/-- The words for truth. -/
def trueWords : List String := ["true", "on", "yes"]

/-- The words for falsehood. -/
def falseWords : List String := ["false", "off", "no"]

/-- A whole number of 64 bits without a sign, which may start with a plus. -/
def wordOfText? (s : String) : Option Nat :=
  let digits := match s.toList with
    | '+' :: rest => rest
    | cs => cs
  if digits ≠ [] && digits.all Char.isDigit && Toml.ofDigits 10 digits < UInt64.size then
    some (Toml.ofDigits 10 digits)
  else none

/-- A setting as a whole number. -/
def readWord (key : String) (s : Setting) : Except SettingsFault Nat :=
  match s with
  | .scalar _ (.integer i) =>
    if 0 ≤ i then .ok i.toNat
    else .error (mistyped s "an unsigned 64 bit or less integer" key)
  | .scalar _ (.bool b) => .ok (if b then 1 else 0)
  | .scalar _ (.float x) => .ok x.toWord
  | .scalar _ (.text t) =>
    let word := Text.lowercase t
    if trueWords.contains word then .ok 1
    else if falseWords.contains word then .ok 0
    else match wordOfText? t with
      | some n => .ok n
      | none => .error (mistyped s "an integer" key)
  | _ => .error (mistyped s "an integer" key)

/-- A setting as a truth value. -/
def readBool (key : String) (s : Setting) : Except SettingsFault Bool :=
  match s with
  | .scalar _ (.bool b) => .ok b
  | .scalar _ (.integer i) => .ok (i != 0)
  | .scalar _ (.float x) => .ok (!x.isZero)
  | .scalar origin (.text t) =>
    let word := Text.lowercase t
    if ("1" :: trueWords).contains word then .ok true
    else if ("0" :: falseWords).contains word then .ok false
    else .error (mistyped (.scalar origin (.text word)) "a boolean" key)
  | _ => .error (mistyped s "a boolean" key)

/-- A setting as a text. -/
def readText (key : String) (s : Setting) : Except SettingsFault String :=
  match s with
  | .scalar _ (.text t) => .ok t
  | .scalar _ (.bool b) => .ok (if b then "true" else "false")
  | .scalar _ (.integer i) => .ok (toString i)
  | .scalar _ (.float x) => .ok x.toText
  | _ => .error (mistyped s "a string" key)

/-- A setting as a list of texts. -/
def readTexts (key : String) (s : Setting) : Except SettingsFault (List String) :=
  match s with
  | .list _ items =>
    items.zipIdx.mapM fun (item, i) => readText s!"{key}[{i}]" item
  | other => .error (.wrongShape s!"invalid type: {describeShape other}, expected a sequence")

/-- A setting as a format: its name, or a table whose only key is its name. -/
def readFormat (s : Setting) : Except SettingsFault OutputFormat :=
  let named (word : String) : Except SettingsFault OutputFormat :=
    match OutputFormat.ofNameAnyCase? word with
    | some f => .ok f
    | none => .error (.wrongShape s!"enum OutputFormat does not have variant constructor {word}")
  match s with
  | .scalar _ (.text t) => named t
  | .table _ [(key, _)] => named key
  | _ => .error (.wrongShape
      ("value of enum OutputFormat should be represented by either string or table " ++
        "with exactly one key"))

/-- The settings inside a group of two, each with the key it stands under: by their names in a
table, by their places in a list. -/
def members (group title : String) (names : String × String) (s : Setting) :
    Except SettingsFault (Option (String × Setting) × Option (String × Setting)) :=
  match s with
  | .table _ _ =>
    let member (name : String) := (s.get? name).map fun v => (s!"{group}.{name}", v)
    .ok (member names.1, member names.2)
  | .list _ items =>
    let member (i : Nat) := items[i]?.map fun v => (s!"{group}[{i}]", v)
    .ok (member 0, member 1)
  | other => .error (.wrongShape s!"invalid type: {describeShape other}, expected struct {title}")

/-- The fault of a group that lacks a member: by its name in a table, by the length of a list. -/
def lacking (s : Setting) (title name : String) (index : Nat) : SettingsFault :=
  match s with
  | .list _ _ => .wrongShape s!"invalid length {index}, expected struct {title} with 2 elements"
  | _ => .wrongShape s!"missing field \x60{name}\x60"

/-- A group that has to be there. -/
def group (s : Setting) (name : String) : Except SettingsFault Setting :=
  match s.get? name with
  | some g => .ok g
  | none => .error (.wrongShape s!"missing field \x60{name}\x60")

/-- How outlines are read. -/
def readParser (s : Setting) : Except SettingsFault (Nat × List String) := do
  let (width?, paths?) ← members "parser" "ParserConfig" ("indent_spaces", "search_paths") s
  let width ← width?.mapM fun (key, v) => readWord key v
  let paths ← paths?.mapM fun (key, v) => readTexts key v
  match width with
  | some width => .ok (width, paths.getD [])
  | none => .error (lacking s "ParserConfig" "indent_spaces" 0)

/-- How documents are written. -/
def readOutput (s : Setting) : Except SettingsFault (OutputFormat × Bool) := do
  let (format?, preamble?) ← members "output" "OutputConfig" ("format", "preamble") s
  let format ← format?.mapM fun (_, v) => readFormat v
  let preamble ← preamble?.mapM fun (key, v) => readBool key v
  match format, preamble with
  | some format, some preamble => .ok (format, preamble)
  | none, _ => .error (lacking s "OutputConfig" "format" 0)
  | _, none => .error (lacking s "OutputConfig" "preamble" 1)

/-- The settings that joined layers hold. -/
def ofSetting (s : Setting) : Except SettingsFault Settings := do
  let (width, searchPaths) ← readParser (← group s "parser")
  let (format, preamble) ← readOutput (← group s "output")
  .ok { width, searchPaths, format, preamble }

/-- What is built in. -/
def builtIn : Setting :=
  .table none
    [("parser", .table none
      [("indent_spaces", .scalar none (.integer 4)), ("search_paths", .list none [])]),
     ("output", .table none
      [("format", .scalar none (.text "prompt")), ("preamble", .scalar none (.bool true))])]

/-- The whole path of a file, from the root. -/
def wholePath (w : Workspace) (path : String) : String :=
  Path.join ("/" ++ Text.joinWith "/" w.here) path

/-- The path with an ending behind its last name; a path without a last name has no such path. -/
def withEnding? (path ending : String) : Option String :=
  (Path.fileName? path).map fun name =>
    let parts := (Path.parts path).reverse.dropWhile fun part => part = "" || part = "."
    Text.joinWith "/" (parts.drop 1).reverse ++ "/" ++ name ++ ending

/-- The path of a settings file: the path itself, or with its ending added. -/
def findFile? (w : Workspace) (path : String) : Option String :=
  let whole := wholePath w path
  if w.isFile whole then some whole
  else (withEnding? whole ".toml").filter w.isFile

/-- A whole path as seen from the working directory. -/
def shownPath (w : Workspace) (whole : String) : String :=
  let names := Path.names whole
  let shared := ((names.zip w.here).takeWhile fun (a, b) => a == b).length
  Text.joinWith "/" (List.replicate (w.here.length - shared) ".." ++ names.drop shared)

/-- The fields of a settings file. A byte order mark at its start is passed over, and bytes that are
no text are replaced. A file that need not be there has no fields if it cannot be read. -/
def readFile (w : Workspace) (path : String) (required : Bool) :
    Except SettingsFault (List (String × Setting)) :=
  match (findFile? w path).map fun whole => (whole, w.read whole) with
  | some (whole, .ok bytes) =>
    let text := Text.Utf8.lossy
      (if [0xEF, 0xBB, 0xBF].isPrefixOf bytes then bytes.drop 3 else bytes)
    match Toml.parse? text with
    | some fields => .ok (Setting.ofTomlFields (some (shownPath w whole)) fields)
    | none => .error (.badFile (shownPath w whole))
  | some (_, .error fault) =>
    if required then .error (.missingFile { path, refusal := some fault }) else .ok []
  | none => if required then .error (.missingFile { path }) else .ok []

/-- The overrides among layers, with their paths. A key that is no path is a fault. -/
def overrides : List Layer → Except SettingsFault (List (KeyPath × Setting))
  | [] => .ok []
  | .file _ _ :: rest => overrides rest
  | .override key value :: rest => do
    match KeyPath.parse? key with
    | none => .error (.badKey key)
    | some path => do
      let others ← overrides rest
      .ok ((path, value) :: others)

/-- Put the files among layers over settings. -/
def layerFiles (w : Workspace) : List Layer → Setting → Except SettingsFault Setting
  | [], s => .ok s
  | .override _ _ :: rest, s => layerFiles w rest s
  | .file path required :: rest, s => do
    let fields ← readFile w path required
    layerFiles w rest (s.layer fields)

/-- The settings that layers hold: files over what is built in, and overrides over files. -/
def build (w : Workspace) (layers : List Layer) : Except SettingsFault Settings := do
  let paths ← overrides layers
  let files ← layerFiles w layers builtIn
  ofSetting (paths.foldl (fun s (path, value) => Setting.assign path value s) files)

end Settings

end PromptOutline
