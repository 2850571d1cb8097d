import PromptOutline.Stream.Measure

/-!
# The stream of tokens over all open files

A run of the stream gives every event up to its end. It ends on every file tree: each included
outline uses up one file, each embedding uses up one directive, and embedded files hold no
directives.
-/

namespace PromptOutline

namespace Stream

/-- How a stream ends. -/
inductive Outcome where
  /-- All files ended; the mark is that of the file that ended last. -/
  | finished (ending : Token)
  /-- A file could not be used. -/
  | failed (d : Diagnostic)
  deriving Repr, DecidableEq

/-- Everything that a stream gives, and how it ends. -/
def run (w : Workspace) (width : UInt64) (s : Stream) : List Event × Outcome :=
  match _h : s.step w width with
  | .finished => ([], .finished s.ending)
  | .failed d => ([], .failed d)
  | .next events s' =>
    let (others, outcome) := run w width s'
    (events ++ others, outcome)
  termination_by (s.unused w, s.directives, s.waiting)
  decreasing_by exact below_of_step _h

end Stream

end PromptOutline
