import PromptOutline.Path
import PromptOutline.Token.Outline

/-!
# The tokens of an embedded file

An embedded file is read as plain text: a line that names the file, an opening fence with the name
of the file's language, the lines of the file, and a closing fence.
-/

namespace PromptOutline.Embedding

/-- The characters that open and close a fenced region. -/
def fence : String := "\x60\x60\x60"

/-- The language for each known file name extension. -/
def languages : List (String × String) :=
  [("bash", "bash"), ("c", "c"), ("cc", "cpp"), ("cpp", "cpp"), ("cs", "csharp"), ("css", "css"),
    ("dart", "dart"), ("ex", "elixir"), ("go", "go"), ("h", "c"), ("hpp", "cpp"), ("html", "html"),
    ("java", "java"), ("js", "javascript"), ("json", "json"), ("kt", "kotlin"), ("lua", "lua"),
    ("m", "objectivec"), ("m6r", "metaphor"), ("md", "markdown"), ("php", "php"), ("pl", "perl"),
    ("py", "python"), ("r", "r"), ("rb", "ruby"), ("rs", "rust"), ("scala", "scala"),
    ("sh", "bash"), ("sql", "sql"), ("swift", "swift"), ("toml", "toml"), ("ts", "typescript"),
    ("tsx", "tsx"), ("txt", "plaintext"), ("xml", "xml"), ("yaml", "yaml"), ("yml", "yaml"),
    ("zig", "zig")]

/-- The language of a file, by the extension of its name in ASCII lower case. -/
def language (fileName : String) : String :=
  ((Path.extension? fileName).bind fun ext =>
    languages.lookup (String.ofList (Keyword.lower ext.toList))).getD "plaintext"

/-- A text token of an embedded file. -/
def textToken (fileName : String) (rawLine text : String) (line : Nat) : Token :=
  { kind := .text, text, rawLine, fileName, line, column := 1 }

/-- The tokens of the lines of a file, from a line number on. -/
def lineTokens (fileName : String) (number : Nat) : List (List Char) → List Token
  | [] => []
  | line :: rest =>
    textToken fileName (String.ofList line) (String.ofList line) number ::
      lineTokens fileName (number + 1) rest

/-- All tokens of an embedded file, closed by the mark for the end of the file. -/
def tokens (fileName : String) (source : String) : List Token :=
  let lines := Text.lines source.toList
  let last := lines.length + 1
  textToken fileName "" ("File: " ++ fileName) 1 ::
    textToken fileName "" (fence ++ language fileName) 1 ::
    (lineTokens fileName 1 lines ++
      [textToken fileName "" fence last, Token.endOfFile fileName last])

end PromptOutline.Embedding
