import PromptOutline.Diagnostic
import PromptOutline.Sources
import PromptOutline.Token.Embedding

/-!
# Steps of the token stream

Reading starts with the tokens of one outline. A directive opens other files, whose tokens come
before the rest of the file that holds it. What the stream gives are events: tokens for the grammar,
and problems with directives. It ends when the last file ends, or at a file that cannot be used.

This module has single steps; `PromptOutline.Stream` has the whole run.
-/

namespace PromptOutline

/-- What the stream gives. -/
inductive Event where
  | token (t : Token)
  | problem (d : Diagnostic)
  deriving Repr, DecidableEq

/-- The files being read. -/
structure Stream where
  sources : Sources
  /-- The tokens that wait in each open file, the innermost first. -/
  opened : List (List Token)
  /-- The mark of the file that ended last. -/
  ending : Token := Token.endOfFile "" 0
  deriving Repr, DecidableEq, Inhabited

namespace Stream

/-- What one step of the stream leads to. -/
inductive Step where
  | finished
  | failed (d : Diagnostic)
  | next (events : List Event) (s : Stream)
  deriving Repr, DecidableEq

/-- Open the outline that a token names. -/
def includeFile (w : Workspace) (width : UInt64) (s : Stream) (name : Token)
    (rest : List Token) (outer : List (List Token)) : Step :=
  match s.sources.load w name.text with
  | (_, .error fault) => .failed (.ofToken fault.message name)
  | (sources, .ok file) =>
    .next [] { s with
      sources, opened := Outline.tokens width file.name file.contents :: rest :: outer }

/-- Open the files that the pattern in a token stands for. -/
def embedFiles (w : Workspace) (s : Stream) (pattern : Token) (rest : List Token)
    (outer : List (List Token)) : Step :=
  match s.sources.expand w pattern.text with
  | .error fault =>
    if fault.isFatal then .failed (.ofToken fault.message pattern)
    else .next [.problem (.ofToken fault.message pattern)] { s with opened := rest :: outer }
  | .ok [] =>
    .next [.problem (.ofToken s!"{pattern.text} does not match any files for 'Embed'" pattern)]
      { s with opened := rest :: outer }
  | .ok (path :: paths) =>
    match (path :: paths).mapM (Sources.loadEmbedded w) with
    | .error fault => .failed (.ofToken fault.message pattern)
    | .ok files =>
      .next [] { s with
        opened := files.map (fun f => Embedding.tokens f.name f.contents) ++ rest :: outer }

/-- Take one token from the innermost file; a directive takes the text behind its keyword, too. -/
def step (w : Workspace) (width : UInt64) (s : Stream) : Step :=
  match s.opened with
  | [] => .finished
  | [] :: outer => .next [] { s with opened := outer }
  | (t :: rest) :: outer =>
    match t.kind with
    | .endOfFile => .next [] { s with opened := outer, ending := t }
    | .includeFile =>
      match rest with
      | name :: rest' =>
        if name.kind = .keywordText then includeFile w width s name rest' outer
        else .next [.problem (.ofToken "Expected file name for 'Include'" t)]
          { s with opened := rest :: outer }
      | [] => .next [.problem (.ofToken "Expected file name for 'Include'" t)]
          { s with opened := rest :: outer }
    | .embedFiles =>
      match rest with
      | pattern :: rest' =>
        if pattern.kind = .keywordText then embedFiles w s pattern rest' outer
        else .next [.problem (.ofToken "Expected file name or wildcard match for 'Embed'" t)]
          { s with opened := rest :: outer }
      | [] => .next [.problem (.ofToken "Expected file name or wildcard match for 'Embed'" t)]
          { s with opened := rest :: outer }
    | _ => .next [.token t] { s with opened := rest :: outer }

end Stream

end PromptOutline
