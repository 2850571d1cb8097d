import PromptOutline.Text.Blank
import PromptOutline.Text.Lines
import PromptOutline.Token.Keyword

/-!
# The tokens of an outline

An outline is read line by line. Between lines two facts are carried: the margin, which is the
column that the block read last starts at, and whether the line before belongs to a run of text
lines.

* A line of spaces is an empty text inside a run of text lines and nothing elsewhere.
* A line that starts with a number sign is a comment.
* A tab after the leading spaces is marked, and the rest of the line is read without it.
* A line whose first word is a keyword gives the keyword and the words after it.
* Every other line is text. Inside a run of text lines a deeper line keeps its extra spaces.

A line that starts left or right of the margin by a whole number of indentation units gives one mark
for each unit; by any other distance it is marked as bad and dropped.
-/

namespace PromptOutline.Outline

/-- What is carried from line to line. -/
structure Margin where
  /-- The column that the margin stands at. -/
  column : Nat := 1
  /-- Whether the line before belongs to a run of text lines. -/
  inText : Bool := false
  deriving Repr, DecidableEq, Inhabited

/-- The place that the tokens of one line share. -/
structure Place where
  fileName : String
  number : Nat
  line : List Char
  deriving Repr, DecidableEq, Inhabited

/-- A token of this line. -/
def Place.token (p : Place) (kind : TokenKind) (text : String) (column : Nat) : Token :=
  { kind, text, rawLine := String.ofList p.line, fileName := p.fileName, line := p.number, column }

/-- The least indentation is one space. -/
def atLeastOne (width : UInt64) : UInt64 := if width = 0 then 1 else width

/-- An indentation width as the signed number that distances are divided by: a width from 2^63 on
wraps to a negative one. -/
def signedUnit (width : UInt64) : Int := (atLeastOne width).toInt64.toInt

/-- How a line that starts at `column` relates to the margin. -/
inductive Shift where
  /-- The line starts where the margin is, or a whole number of units away. -/
  | moved (marks : List Token)
  /-- The line starts at a distance that is no whole number of units. -/
  | rejected (mark : Token)
  deriving Repr, DecidableEq

/-- The marks for moving the margin to `column`. The number of marks is the quotient of the distance
by the signed unit, so a negative unit gives none. -/
def shift (unit : Int) (margin : Nat) (p : Place) (column : Nat) : Shift :=
  let offset : Int := (column : Int) - margin
  if offset = 0 then .moved []
  else if offset.tmod unit ≠ 0 then
    .rejected (if 0 < offset then p.token .badIndent "[Bad Indent]" column
      else p.token .badOutdent "[Bad Outdent]" column)
  else
    let mark := if 0 < offset then p.token .indent "[Indent]" column
      else p.token .outdent "[Outdent]" column
    .moved (List.replicate ((offset.natAbs : Int).tdiv unit).toNat mark)

/-- The tokens of a keyword line whose words start at `column`. -/
def keywordTokens (p : Place) (column : Nat) (kind : TokenKind) (word rest : List Char) :
    List Token :=
  p.token kind (kind.spelling?.getD (String.ofList word)) column ::
    if rest = [] then []
    else [p.token .keywordText (String.ofList rest) (column + word.length + 1)]

/-- Read a keyword line. -/
def readKeyword (unit : Int) (m : Margin) (p : Place) (column : Nat) (kind : TokenKind)
    (word rest : List Char) : Margin × List Token :=
  match shift unit m.column p column with
  | .rejected mark => (m, [mark])
  | .moved marks => ({ column, inText := false }, marks ++ keywordTokens p column kind word rest)

/-- The text token of a line from a column on. -/
def textToken (p : Place) (column : Nat) : Token :=
  p.token .text (String.ofList (p.line.drop (column - 1))) column

/-- Read a text line that starts at `column`. -/
def readText (unit : Int) (m : Margin) (p : Place) (column : Nat) : Margin × List Token :=
  if m.inText && m.column < column then (m, [textToken p m.column])
  else match shift unit m.column p column with
    | .rejected mark => (m, [mark])
    | .moved marks => ({ column, inText := true }, marks ++ [textToken p column])

/-- Read the content of a line, leading spaces and tab aside. -/
def readContent (unit : Int) (m : Margin) (p : Place) (column : Nat) (content : List Char) :
    Margin × List Token :=
  let (word, rest) := Text.firstWord content
  match Keyword.classify? word with
  | some kind => readKeyword unit m p column kind word rest
  | none => readText unit m p column

/-- Read one line. -/
def readLine (unit : Int) (m : Margin) (p : Place) : Margin × List Token :=
  let column := (p.line.takeWhile (· == ' ')).length + 1
  match p.line.dropWhile (· == ' ') with
  | [] => (m, if m.inText then [p.token .text "" m.column] else [])
  | '#' :: _ => (m, [])
  | '\t' :: content =>
    let (m', tokens) := readContent unit m p column content
    (m', p.token .tab "[Tab]" column :: tokens)
  | content => readContent unit m p column content

/-- Read lines from line number `number` on, and give the margin they leave. -/
def readLines (unit : Int) (fileName : String) (m : Margin) (number : Nat) :
    List (List Char) → Margin × List Token
  | [] => (m, [])
  | line :: rest =>
    let (m', tokens) := readLine unit m { fileName, number, line }
    let (last, others) := readLines unit fileName m' (number + 1) rest
    (last, tokens ++ others)

/-- The marks that close the blocks still open at the end, one for each width that the margin stands
right of the first column. -/
def closingMarks (width : Nat) (fileName : String) (number column : Nat) : List Token :=
  if _h : 1 < column ∧ 0 < width then
    { kind := .outdent, text := "[Outdent]", rawLine := "", fileName, line := number, column } ::
      closingMarks width fileName number (max (column - width) 1)
  else []
  termination_by column

/-- All tokens of an outline, closed by the mark for the end of the file. -/
def tokens (width : UInt64) (fileName : String) (source : String) : List Token :=
  let lines := Text.lines source.toList
  let (m, body) := readLines (signedUnit width) fileName {} 1 lines
  let number := lines.length + 1
  body ++ closingMarks (atLeastOne width).toNat fileName number m.column ++
    [Token.endOfFile fileName number]

end PromptOutline.Outline
