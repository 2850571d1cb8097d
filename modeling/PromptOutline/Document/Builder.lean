import PromptOutline.Diagnostic
import PromptOutline.Document
import PromptOutline.Stream

/-!
# Building a document from events

A block is a keyword, an optional name, an indent, its body and an outdent. A body is text followed,
in a context only, by further contexts. At the top stand blocks, each kind once.

The builder takes tokens one by one and keeps the blocks that are open, the innermost first. A token
that no rule takes is reported and passed over, so that one run reports as much as it can. The end
of the input closes every block.
-/

namespace PromptOutline

/-- How much of an open block was read. -/
inductive Phase where
  /-- The keyword. -/
  | keyword
  /-- The keyword and a name. -/
  | name
  /-- Everything up to the body, of which some was read, with or without nested blocks. -/
  | body (nested : Bool)
  deriving Repr, DecidableEq, Inhabited

/-- A block that is open. -/
structure Frame where
  block : NodeId
  kind : TokenKind
  phase : Phase
  deriving Repr, DecidableEq, Inhabited

/-- A document being built, the problems found so far, and the open blocks. -/
structure Builder where
  document : Document := {}
  problems : List Diagnostic := []
  frames : List Frame := []
  deriving Repr, DecidableEq, Inhabited

namespace Builder

/-- Note a problem. -/
def note (b : Builder) (d : Diagnostic) : Builder := { b with problems := b.problems ++ [d] }

/-- Note a problem at a token. -/
def report (b : Builder) (t : Token) (message : String) : Builder := b.note (.ofToken message t)

/-- Add a token below an open block. -/
def addBelow (b : Builder) (f : Frame) (t : Token) : Builder :=
  let (d, id) := b.document.add (.ofToken t)
  { b with document := d.append f.block id }

/-- Open a block at the top. The first block of a kind becomes its section. -/
def openSection (b : Builder) (t : Token) : Builder :=
  let (d, id) := b.document.add (.ofToken t)
  { b with
    document := (d.setRoot t.kind id).1,
    frames := [{ block := id, kind := t.kind, phase := .keyword }] }

/-- Open a block inside another one. -/
def openNested (b : Builder) (f : Frame) (outer : List Frame) (t : Token) : Builder :=
  let (d, id) := b.document.add (.ofToken t)
  { b with
    document := d.append f.block id,
    frames := { block := id, kind := t.kind, phase := .keyword } ::
      { f with phase := .body true } :: outer }

/-- Go on with the innermost block in another phase. -/
def enter (b : Builder) (f : Frame) (outer : List Frame) (phase : Phase) : Builder :=
  { b with frames := { f with phase } :: outer }

/-- Whether a kind of token closes a block. -/
def closes (k : TokenKind) : Bool := k == .outdent || k == .endOfFile

/-- Report a token where an indent should be. It closes the block, or the body starts behind it. -/
def missIndent (b : Builder) (f : Frame) (outer : List Frame) (t : Token) (message : String) :
    Builder :=
  let reported := b.report t message
  if closes t.kind then { reported with frames := outer }
  else reported.enter f outer (.body false)

/-- Take a token at the top. -/
def takeTop (b : Builder) (t : Token) : Builder :=
  match Section.ofKind? t.kind with
  | some s =>
    (if (b.document.root? s).isSome then b.report t s!"'{t.kind.name}' already defined" else b)
      |>.openSection t
  | none =>
    if t.kind = .endOfFile then b else b.report t s!"Unexpected token: {t.text} at top level"

/-- Take a token in the body of a block. -/
def takeBody (b : Builder) (f : Frame) (outer : List Frame) (nested : Bool) (t : Token) : Builder :=
  if t.kind = .text then
    if nested then b.report t s!"Text must come first in a '{f.kind.name}' block"
    else b.addBelow f t
  else if t.kind = .context ∧ f.kind = .context then b.openNested f outer t
  else if closes t.kind then { b with frames := outer }
  else b.report t s!"Unexpected token: {t.text} in '{f.kind.name}' block"

/-- Take one token. -/
def take (b : Builder) (t : Token) : Builder :=
  match b.frames with
  | [] => b.takeTop t
  | f :: outer =>
    match f.phase with
    | .keyword =>
      if t.kind = .keywordText then (b.addBelow f t).enter f outer .name
      else if t.kind = .indent then b.enter f outer (.body false)
      else b.missIndent f outer t s!"Expected description or indent for '{f.kind.name}' block"
    | .name =>
      if t.kind = .indent then b.enter f outer (.body false)
      else b.missIndent f outer t
        s!"Expected indent after keyword description for '{f.kind.name}' block"
    | .body nested => b.takeBody f outer nested t

/-- Take one event. -/
def event (b : Builder) : Event → Builder
  | .token t => b.take t
  | .problem d => b.note d

/-- Close every open block at the end of the input. Only the innermost one can lack its body. -/
def close (b : Builder) (ending : Token) : Builder := { b.take ending with frames := [] }

/-- The document, unless there were problems. -/
def result (b : Builder) : Except (List Diagnostic) Document :=
  if b.problems.isEmpty then .ok b.document else .error b.problems

/-- Build a document from all events of a stream. A failure is reported behind all other
problems. -/
def build (events : List Event) (outcome : Stream.Outcome) : Except (List Diagnostic) Document :=
  let b := events.foldl event {}
  match outcome with
  | .finished ending => (b.close ending).result
  | .failed d => (b.note d).result

end Builder

end PromptOutline
