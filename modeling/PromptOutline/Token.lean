/-!
# Tokens

A token is one unit of an outline with the file, line and column it stands at and the whole line it
was cut from. Kinds come in four groups: the five keywords, the text of a keyword line or a text
line, the marks for a change of indentation, and the marks for lines that break the layout rules.
-/

namespace PromptOutline

/-- The kind of a token. -/
inductive TokenKind where
  | none
  | indent
  | outdent
  | includeFile
  | embedFiles
  | keywordText
  | text
  | action
  | context
  | role
  | badIndent
  | badOutdent
  | tab
  | endOfFile
  deriving Repr, DecidableEq, Inhabited

namespace TokenKind

/-- All kinds, each once. -/
def all : List TokenKind :=
  [none, indent, outdent, includeFile, embedFiles, keywordText, text, action, context, role,
    badIndent, badOutdent, tab, endOfFile]

/-- The written name of a kind. -/
def name : TokenKind → String
  | none => "None"
  | indent => "Indent"
  | outdent => "Outdent"
  | includeFile => "Include"
  | embedFiles => "Embed"
  | keywordText => "KeywordText"
  | text => "Text"
  | action => "Action"
  | context => "Context"
  | role => "Role"
  | badIndent => "BadIndent"
  | badOutdent => "BadOutdent"
  | tab => "Tab"
  | endOfFile => "EndOfFile"

/-- The kind with a given name. -/
def ofName? (s : String) : Option TokenKind := all.find? (·.name == s)

/-- Kinds that open a block. -/
def isBlock : TokenKind → Bool
  | action | context | role => true
  | _ => false

/-- Kinds that bring in another file. -/
def isDirective : TokenKind → Bool
  | includeFile | embedFiles => true
  | _ => false

/-- The keyword that stands for a kind, without its colon. -/
def keyword? (k : TokenKind) : Option String :=
  if k.isBlock || k.isDirective then some k.name else Option.none

/-- The keyword as it is written, with its colon. -/
def spelling? (k : TokenKind) : Option String := k.keyword?.map (· ++ ":")

/-- Every kind is listed. -/
theorem mem_all (k : TokenKind) : k ∈ all := by cases k <;> decide

/-- A kind is found under its own name. -/
theorem ofName?_name (k : TokenKind) : ofName? k.name = some k := by cases k <;> decide

end TokenKind

/-- A token with its place. Lines and columns count from one. -/
structure Token where
  kind : TokenKind
  /-- What the token means: a keyword, the words after it, a text line, or a mark in brackets. -/
  text : String
  /-- The whole line that the token was cut from; empty for a token that no line gave rise to. -/
  rawLine : String
  fileName : String
  line : Nat
  column : Nat
  deriving Repr, DecidableEq, Inhabited

namespace Token

/-- The mark for the end of a file. -/
def endOfFile (fileName : String) (line : Nat) : Token :=
  { kind := .endOfFile, text := "", rawLine := "", fileName, line, column := 1 }

/-- One line that describes a token. -/
def describe (t : Token) : String :=
  s!"Token(type={t.kind.name}, value='{t.text}', line={t.line}, column={t.column})"

end Token

end PromptOutline
