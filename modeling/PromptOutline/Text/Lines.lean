/-!
# Pieces and lines

`pieces` cuts a text at every copy of a separator, so that the pieces joined by the separator are
the text again. `lines` counts lines the way a text file does: a line feed ends a line, one carriage
return before it belongs to the line end, and no empty line follows the last line feed.
-/

namespace PromptOutline.Text

/-- Cut a text at every copy of `sep`. There is always one piece more than there are copies. -/
def pieces (sep : Char) (cs : List Char) : List (List Char) :=
  cs.foldr (fun c rest =>
    if c = sep then [] :: rest
    else match rest with
      | [] => [[c]]
      | piece :: others => (c :: piece) :: others) [[]]

/-- The texts between copies of `sep`, as strings. -/
def splitAt (sep : Char) (s : String) : List String :=
  (pieces sep s.toList).map String.ofList

/-- A line without the carriage return that stands before its line feed. -/
def dropReturn (line : List Char) : List Char :=
  if line.getLast? = some '\r' then line.dropLast else line

/-- The lines that the pieces between line feeds stand for: every piece but the last was ended by a
line feed, and the last one is a line only if it holds something. -/
def linesOfPieces : List (List Char) → List (List Char)
  | [] => []
  | [last] => if last = [] then [] else [last]
  | piece :: next :: others => dropReturn piece :: linesOfPieces (next :: others)

/-- The lines of a text. -/
def lines (cs : List Char) : List (List Char) := linesOfPieces (pieces '\n' cs)

/-- Join texts with a separator between them. -/
def joinWith (sep : String) (parts : List String) : String := sep.intercalate parts

/-- Every text has a piece. -/
theorem pieces_ne_nil (sep : Char) (cs : List Char) : pieces sep cs ≠ [] := by
  cases cs with
  | nil => simp [pieces]
  | cons c cs =>
    simp only [pieces, List.foldr_cons]
    split
    · simp
    · split <;> simp

end PromptOutline.Text
