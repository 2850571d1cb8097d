/-!
# Blank characters and words

The blank characters are those with the Unicode property White_Space. Words are cut from a list of
characters at blanks.
-/

namespace PromptOutline.Text

/-- The closed ranges of code points with the property White_Space. -/
def blankRanges : List (Nat × Nat) :=
  [(0x9, 0xD), (0x20, 0x20), (0x85, 0x85), (0xA0, 0xA0), (0x1680, 0x1680), (0x2000, 0x200A),
    (0x2028, 0x2029), (0x202F, 0x202F), (0x205F, 0x205F), (0x3000, 0x3000)]

/-- A character is blank when its code point lies in one of `blankRanges`. -/
def isBlank (c : Char) : Bool :=
  blankRanges.any fun (first, last) => first ≤ c.toNat && c.toNat ≤ last

/-- Drop the blank characters at the start. -/
def trimStart (cs : List Char) : List Char := cs.dropWhile isBlank

/-- The first word, leading blanks aside, and what follows the blanks after it. -/
def firstWord (cs : List Char) : List Char × List Char :=
  let body := trimStart cs
  (body.takeWhile (!isBlank ·), trimStart (body.dropWhile (!isBlank ·)))

/-- A text without its trailing copies of one character. -/
def dropTrailing (c : Char) (cs : List Char) : List Char :=
  (cs.reverse.dropWhile (· == c)).reverse

end PromptOutline.Text
