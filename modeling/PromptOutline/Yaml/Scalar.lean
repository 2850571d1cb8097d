import PromptOutline.Decimal
import PromptOutline.Text.Lines

/-!
# Texts in YAML

A text is written in the plainest of four styles that reads back as the same text: bare, in single
quotes, in double quotes with escapes, or as a block of lines. Texts with a line feed are blocks if
a block can hold them. A text that would read as something else than a text is put in quotes.
-/

namespace PromptOutline.Yaml

/-- The characters that end a line. -/
def isBreak (c : Char) : Bool :=
  c == '\n' || c == '\r' || c == '\u0085' || c == '\u2028' || c == '\u2029'

/-- The characters that divide words, the end of a text among them. -/
def isGap : Option Char → Bool
  | none => true
  | some c => c == ' ' || c == '\t' || isBreak c || c == '\x00'

/-- The characters that stand for themselves in every style. -/
def isPrintable (c : Char) : Bool :=
  let n := c.toNat
  n == 0x0A || (0x20 ≤ n && n ≤ 0x7E) || (0xA0 ≤ n && n != 0xFEFF && n != 0xFFFE && n != 0xFFFF)

/-- Whether two neighbours stand somewhere in a text, the first with one property and the second
with another. -/
def hasNeighbours (p q : Char → Bool) : List Char → Bool
  | a :: b :: rest => (p a && q b) || hasNeighbours p q (b :: rest)
  | _ => false

/-- A space or a line break. -/
def isEdge (c : Char) : Bool := c == ' ' || isBreak c

/-- Whether some colon is followed by a gap. -/
def hasKeyMark : List Char → Bool
  | [] => false
  | c :: rest => (c == ':' && isGap rest.head?) || hasKeyMark rest

/-- Whether a text starts with a character that means something else at that place. -/
def startsReserved (cs : List Char) : Bool :=
  "---".toList.isPrefixOf cs || "...".toList.isPrefixOf cs ||
  match cs with
  | [] => false
  | c :: rest =>
    "#,[]\x7b\x7d&*!|>'\"%@\x60".toList.contains c ||
      ((c == '-' || c == '?' || c == ':') && isGap rest.head?)

/-- Whether a number sign stands behind a gap. -/
def hasCommentMark (cs : List Char) : Bool := hasNeighbours (isGap ∘ some) (· == '#') cs

/-- Whether a text can stand bare. -/
def plainAllowed (cs : List Char) : Bool :=
  !startsReserved cs && !hasKeyMark cs && !hasCommentMark cs && !cs.any isBreak &&
    cs.all isPrintable && !(cs.head?.any isEdge) && !(cs.getLast?.any isEdge)

/-- Whether a text can stand in single quotes. -/
def singleQuotedAllowed (cs : List Char) : Bool :=
  cs.all isPrintable && !hasNeighbours isBreak (· == ' ') cs && !hasNeighbours (· == ' ') isBreak cs

/-- Whether a text can stand as a block of lines. -/
def blockAllowed (cs : List Char) : Bool :=
  cs.all isPrintable && !hasNeighbours (· == ' ') isBreak cs && cs.getLast? != some ' '

/-- The value of a digit in some base up to sixteen. -/
def digitValue? (base : Nat) (c : Char) : Option Nat :=
  let value? :=
    if '0' ≤ c && c ≤ '9' then some (c.toNat - '0'.toNat)
    else if 'a' ≤ c && c ≤ 'f' then some (c.toNat - 'a'.toNat + 10)
    else if 'A' ≤ c && c ≤ 'F' then some (c.toNat - 'A'.toNat + 10)
    else none
  value?.filter (· < base)

/-- The whole number that digits of some base stand for. -/
def ofDigits? (base : Nat) (cs : List Char) : Option Nat :=
  if cs = [] then none
  else cs.foldlM (fun n c => (digitValue? base c).map (base * n + ·)) 0

/-- The whole number after a mark for its base. -/
def ofBased? : List Char → Option Nat
  | '0' :: mark :: digits =>
    if mark = 'x' then ofDigits? 16 digits
    else if mark = 'o' then ofDigits? 8 digits
    else if mark = 'b' then ofDigits? 2 digits
    else none
  | _ => none

/-- A sign at the start, and the rest. -/
def spanSign : List Char → Option Char × List Char
  | '-' :: rest => (some '-', rest)
  | '+' :: rest => (some '+', rest)
  | rest => (none, rest)

/-- Digits that start with a zero and so are no number. -/
def isZeroLed (cs : List Char) : Bool :=
  match (spanSign cs).2 with
  | '0' :: digit :: rest => (digit :: rest).all Char.isDigit
  | _ => false

/-- Whether a text reads as a whole number of at most 128 bits. -/
def readsAsWhole (cs : List Char) : Bool :=
  match spanSign cs with
  | (sign, digits) =>
    let value? := (ofBased? digits).or (if isZeroLed cs then none else ofDigits? 10 digits)
    match value? with
    | none => false
    | some n => if sign = some '-' then n ≤ Nat.pow 2 127 else n < Nat.pow 2 128

/-- Whether a text reads as a number of floating point: a decimal that is finite, an infinity, or
the mark for no number. -/
def readsAsFloat (cs : List Char) : Bool :=
  [".inf", ".Inf", ".INF"].contains (String.ofList (spanSign cs).2) ||
    [".nan", ".NaN", ".NAN"].contains (String.ofList cs) ||
    (Decimal.ofText? cs).any Decimal.isFinite

/-- The words for nothing, for truth and for falsehood. -/
def reservedWords : List String :=
  ["", "~", "null", "Null", "NULL", "true", "True", "TRUE", "false", "False", "FALSE"]

/-- Whether a bare text would read as something else than a text. -/
def isAmbiguous (cs : List Char) : Bool :=
  reservedWords.contains (String.ofList cs) || readsAsWhole cs || isZeroLed cs || readsAsFloat cs

/-- The digits of a number in base sixteen, in upper case and filled up to a width. -/
def hexDigits : (width : Nat) → Nat → List Char
  | 0, _ => []
  | width + 1, n => hexDigits width (n / 16) ++ [("0123456789ABCDEF".toList)[n % 16]?.getD '0']

/-- How a character is written between double quotes. -/
def escapeChar (c : Char) : List Char :=
  if c == '"' then ['\\', '"']
  else if c == '\\' then ['\\', '\\']
  else if isPrintable c && !isBreak c then [c]
  else
    let n := c.toNat
    match [(0x00, '0'), (0x07, 'a'), (0x08, 'b'), (0x09, 't'), (0x0A, 'n'), (0x0B, 'v'),
        (0x0C, 'f'), (0x0D, 'r'), (0x1B, 'e'), (0x85, 'N'), (0x2028, 'L'),
        (0x2029, 'P')].lookup n with
    | some letter => ['\\', letter]
    | none =>
      if n ≤ 0xFF then '\\' :: 'x' :: hexDigits 2 n
      else if n ≤ 0xFFFF then '\\' :: 'u' :: hexDigits 4 n
      else '\\' :: 'U' :: hexDigits 8 n

/-- A text between double quotes. -/
def doubleQuoted (cs : List Char) : String :=
  String.ofList ('"' :: cs.flatMap escapeChar ++ ['"'])

/-- A text between single quotes. A run of line breaks is followed by the margin. -/
def singleQuotedBody (margin : Nat) : (afterBreak : Bool) → List Char → List Char
  | afterBreak, [] => if afterBreak then List.replicate margin ' ' else []
  | afterBreak, c :: rest =>
    if isBreak c then c :: singleQuotedBody margin true rest
    else
      (if afterBreak then List.replicate margin ' ' else []) ++
        (if c = '\x27' then [c, c] else [c]) ++ singleQuotedBody margin false rest

/-- A text between single quotes. -/
def singleQuoted (margin : Nat) (cs : List Char) : String :=
  String.ofList ('\x27' :: singleQuotedBody margin false cs ++ ['\x27'])

/-- The lines of a block: every run of line breaks is followed by the margin, unless the text
ends. -/
def blockBody (margin : Nat) : (afterBreak : Bool) → List Char → List Char
  | _, [] => []
  | afterBreak, c :: rest =>
    if isBreak c then c :: blockBody margin true rest
    else (if afterBreak then List.replicate margin ' ' else []) ++ c :: blockBody margin false rest

/-- What follows the bar of a block: the width of the margin if the text starts with a space or a
line break, and how the end of the text is kept. -/
def blockHints (cs : List Char) : String :=
  (if cs.head?.any isEdge then "2" else "") ++
  match cs.reverse with
  | [] => "-"
  | [last] => if isBreak last then "+" else "-"
  | last :: before :: _ => if !isBreak last then "-" else if isBreak before then "+" else ""

/-- A text as a block of lines. It ends with the line break of its last line. -/
def block (margin : Nat) (cs : List Char) : String :=
  "|" ++ blockHints cs ++ "\n" ++ String.ofList (blockBody margin true cs) ++
    (if cs.getLast?.any isBreak then "" else "\n")

/-- A text as the value of a key whose column is `indent`, with the line end behind it. -/
def scalar (indent : Nat) (s : String) : String :=
  let cs := s.toList
  let margin := indent + 2
  if cs.contains '\n' then
    if blockAllowed cs then block margin cs else doubleQuoted cs ++ "\n"
  else if !isAmbiguous cs && plainAllowed cs then s ++ "\n"
  else if singleQuotedAllowed cs then singleQuoted margin cs ++ "\n"
  else doubleQuoted cs ++ "\n"

end PromptOutline.Yaml
