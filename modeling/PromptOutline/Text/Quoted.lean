import PromptOutline.Text.HiddenChars

/-!
# Texts in reports

A text inside a report stands between double quotes. Quotes, backslashes and line ends are escaped,
and characters that cannot be seen are written by their number.
-/

namespace PromptOutline.Text

/-- The digits of a number in base sixteen. -/
def hexText (n : Nat) : List Char := Nat.toDigits 16 n

/-- How a character is written inside a report. -/
def reportChar (c : Char) : List Char :=
  if c = '"' then ['\\', '"']
  else if c = '\\' then ['\\', '\\']
  else if c = '\n' then ['\\', 'n']
  else if c = '\r' then ['\\', 'r']
  else if c = '\t' then ['\\', 't']
  else if c = '\x00' then ['\\', '0']
  else if isHiddenChar c then '\\' :: 'u' :: '\x7b' :: hexText c.toNat ++ ['\x7d']
  else [c]

/-- A text as it stands in a report. -/
def quoted (s : String) : String :=
  String.ofList ('"' :: s.toList.flatMap reportChar ++ ['"'])

end PromptOutline.Text
