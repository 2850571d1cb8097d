import PromptOutline.Path
import PromptOutline.Text.Search

/-!
# File name patterns

A pattern stands for names: a question mark for any character, a star for any characters, brackets
for one character of a set or outside of it. A component of two stars stands for any number of
directories.
-/

namespace PromptOutline

/-- A set of characters between brackets: single characters and ranges. -/
abbrev CharRanges := List (Char × Char)

/-- A part of a pattern. -/
inductive Glob where
  | literal (c : Char)
  | anyChar
  | anyText
  | anyDirectories
  | within (ranges : CharRanges)
  | outside (ranges : CharRanges)
  deriving Repr, DecidableEq, Inhabited

/-- Why a pattern is none. -/
inductive PatternFault where
  | tooManyStars
  | starsNotAlone
  | badBrackets
  deriving Repr, DecidableEq

/-- The wording of a fault. -/
def PatternFault.message : PatternFault → String
  | tooManyStars => "wildcards are either regular \x60*\x60 or recursive \x60**\x60"
  | starsNotAlone => "recursive wildcards must form a single path component"
  | badBrackets => "invalid range pattern"

namespace Glob

/-- The characters and ranges between brackets. A dash between two characters makes a range. -/
def ranges : List Char → CharRanges
  | a :: '-' :: b :: rest => (a, b) :: ranges rest
  | a :: rest => (a, a) :: ranges rest
  | [] => []

/-- The text up to the next closing bracket, the first character aside, and what follows it. -/
def bracketed? : List Char → Option (List Char × List Char)
  | [] => none
  | first :: rest =>
    match rest.span (· ≠ ']') with
    | (body, _ :: after) => some (first :: body, after)
    | (_, []) => none

/-- The set behind an opening bracket, and what follows its closing one. -/
def set? : List Char → Option (Glob × List Char)
  | '!' :: rest => (bracketed? rest).map fun (body, after) => (outside (ranges body), after)
  | rest => (bracketed? rest).map fun (body, after) => (within (ranges body), after)

/-- Read a pattern behind a character, which is `none` at the start. -/
def read : (fuel : Nat) → (before : Option Char) → List Char → Except PatternFault (List Glob)
  | 0, _, _ => .ok []
  | _ + 1, _, [] => .ok []
  | fuel + 1, before, '*' :: rest =>
    match rest with
    | '*' :: '*' :: _ => .error .tooManyStars
    | '*' :: after =>
      if before.all (· == '/') then
        match after with
        | [] => .ok [anyDirectories]
        | '/' :: after => (read fuel (some '/') after).map (anyDirectories :: ·)
        | _ => .error .starsNotAlone
      else .error .starsNotAlone
    | _ => (read fuel (some '*') rest).map (anyText :: ·)
  | fuel + 1, _, '[' :: rest =>
    match set? rest with
    | none => .error .badBrackets
    | some (g, after) => (read fuel (some ']') after).map (g :: ·)
  | fuel + 1, _, '?' :: rest => (read fuel (some '?') rest).map (anyChar :: ·)
  | fuel + 1, _, c :: rest => (read fuel (some c) rest).map (literal c :: ·)

/-- The parts of a pattern. -/
def parse (cs : List Char) : Except PatternFault (List Glob) := read (cs.length + 1) none cs

/-- Whether a set holds a character. -/
def holds (set : CharRanges) (c : Char) : Bool :=
  set.any fun (first, last) => first ≤ c && c ≤ last

/-- Whether a pattern stands for a name. -/
def matches? : List Glob → List Char → Bool
  | [], name => name.isEmpty
  | anyText :: rest, [] => matches? rest []
  | anyText :: rest, c :: name => matches? rest (c :: name) || matches? (anyText :: rest) name
  | anyDirectories :: rest, [] => matches? rest []
  | anyDirectories :: rest, c :: name =>
    matches? rest (c :: name) || matches? (anyDirectories :: rest) name
  | _ :: _, [] => false
  | anyChar :: rest, _ :: name => matches? rest name
  | literal l :: rest, c :: name => l == c && matches? rest name
  | within set :: rest, c :: name => holds set c && matches? rest name
  | outside set :: rest, c :: name => !holds set c && matches? rest name
  termination_by pattern name => pattern.length + name.length

/-- The name that a pattern without wildcards stands for. -/
def literal? : List Glob → Option (List Char)
  | [] => some []
  | literal c :: rest => (literal? rest).map (c :: ·)
  | _ :: _ => none

/-- The pattern that stands for exactly one text. -/
def escape (cs : List Char) : List Char :=
  cs.flatMap fun c => if c = '?' || c = '*' || c = '[' || c = ']' then ['[', c, ']'] else [c]

/-- A pattern with every run of stars made a single star. -/
def collapseStars : List Char → List Char
  | '*' :: '*' :: rest => collapseStars ('*' :: rest)
  | c :: rest => c :: collapseStars rest
  | [] => []

/-- The pattern that a text is taken for: runs of stars are single stars, unless a component that
ends in two stars is followed by a slash. -/
def normalise (cs : List Char) : List Char :=
  if Text.occursIn "**/".toList cs then cs else collapseStars cs

end Glob

end PromptOutline
