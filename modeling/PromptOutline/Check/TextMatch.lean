import PromptOutline.Text.Search

/-!
# Text matches

A text match says what a text should look like, and how it is reported when it does not.
-/

namespace PromptOutline.Check

/-- What a text should look like. -/
inductive TextMatch where
  | exact (expected : String)
  | startsWith (start : String)
  | contains (part : String)
  deriving Repr, DecidableEq

namespace TextMatch

/-- Whether a text looks as it should. -/
def accepts : TextMatch → String → Bool
  | exact expected, actual => actual == expected
  | startsWith start, actual => start.toList.isPrefixOf actual.toList
  | contains part, actual => Text.occursIn part.toList actual.toList

/-- What is expected, in words. -/
def expectation : TextMatch → String
  | exact expected => s!"to be '{expected}'"
  | startsWith start => s!"to start with '{start}'"
  | contains part => s!"to contain '{part}'"

/-- What to report about a text, if it does not look as it should. -/
def failure? (m : TextMatch) (actual context : String) : Option String :=
  if m.accepts actual then none
  else some s!"{context}: Expected text {m.expectation}, but got '{actual}'"

end TextMatch

end PromptOutline.Check
