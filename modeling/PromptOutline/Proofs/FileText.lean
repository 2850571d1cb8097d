import PromptOutline.Proofs.Alike
import PromptOutline.Proofs.Embedded
import PromptOutline.Proofs.Reuse

/-!
# A file and its text

Reading a file records its location, reading its text does not. A record matters only where an
include is looked up, so the two readings take the same steps as long as nothing is looked up at
that location. Where something is, reading the file fails, because its location is recorded.
-/

namespace PromptOutline

/-! ### Records that agree -/

private theorem Sources.Agrees.symm {P : Location → Prop} {s s' : Sources} (h : s.Agrees P s') :
    s'.Agrees P s :=
  ⟨h.searchPaths.symm, fun l hl => (h.used l hl).symm⟩

namespace Stream

variable {w : Workspace} {width : UInt64}

/-- Steps with the same events to streams with the same open files, whose records agree on the
locations of interest. -/
inductive Step.Matches (P : Location → Prop) : Step → Step → Prop where
  | finished : Step.Matches P .finished .finished
  | failed (d : Diagnostic) : Step.Matches P (.failed d) (.failed d)
  | next {r r' : Sources} (es : List Event) (opened : List (List Token)) (ending : Token)
      (h : r.Agrees P r') :
      Step.Matches P (.next es { sources := r, opened, ending })
        (.next es { sources := r', opened, ending })

/-- A step looks at the record only where it looks up an include. -/
theorem step_matches (width : UInt64) {P : Location → Prop} {r r' : Sources} (h : r.Agrees P r')
    (opened : List (List Token)) (ending : Token)
    (hP : ∀ l ∈ lookup? w { sources := r, opened, ending }, P l) :
    (step w width { sources := r, opened, ending }).Matches P
      (step w width { sources := r', opened, ending }) := by
  cases opened with
  | nil => exact .finished
  | cons ts outer =>
    cases front ts with
    | nothing => exact .next [] outer ending h
    | ending ht =>
      rw [step_ending ht, step_ending ht]
      exact .next [] outer _ h
    | token ht =>
      rw [step_token ht, step_token ht]
      exact .next _ _ ending h
    | bare ht hbare =>
      rw [step_bare ht hbare, step_bare ht hbare]
      exact .next _ _ ending h
    | @included t name rest ht hname =>
      rw [lookup?_included ht hname] at hP
      rcases hload : r.load w name.text with ⟨q, fault | file⟩ <;>
        obtain ⟨q', hload', hagrees⟩ := h.load hP hload
      · rw [step_include_error ht hname hload, step_include_error ht hname hload']
        exact .failed _
      · rw [step_include ht hname hload, step_include ht hname hload']
        exact .next [] _ ending hagrees
    | @embedded t pattern rest ht hpattern =>
      rw [step_embedFiles ht hpattern, step_embedFiles ht hpattern]
      simp only [embedFiles, h.expand]
      split
      · split
        · exact .failed _
        · exact .next _ _ ending h
      · exact .next _ _ ending h
      · split
        · exact .failed _
        · exact .next [] _ ending h

/-- Streams with the same open files run the same, if their records agree on all locations that the
first one looks up. -/
theorem run_of_agrees {P : Location → Prop} {r r' : Sources} (h : r.Agrees P r')
    (opened : List (List Token)) (ending : Token)
    (hP : ∀ l ∈ lookups w width { sources := r, opened, ending }, P l) :
    run w width { sources := r, opened, ending } =
      run w width { sources := r', opened, ending } := by
  -- Along the run of the first stream; the records keep agreeing.
  induction hx : ({ sources := r, opened, ending } : Stream) using step_induction w width
    generalizing r r' opened ending with
  | next x ih =>
    subst hx
    have hlookup : ∀ l ∈ lookup? w { sources := r, opened, ending }, P l := by
      intro l hl
      apply hP
      rw [lookups]
      exact List.mem_append_left _ (Option.mem_toList.mpr hl)
    have hstep := step_matches width h opened ending hlookup
    generalize hs : step w width { sources := r, opened, ending } = x at hstep
    generalize hs' : step w width { sources := r', opened, ending } = x' at hstep
    cases hstep with
    | finished => rw [run_of_finished hs, run_of_finished hs']
    | failed d => rw [run_of_failed hs, run_of_failed hs']
    | next es opened' ending' hagrees =>
      rw [lookups_of_next hs] at hP
      rw [run_of_next hs, run_of_next hs', ih es _ hs hagrees opened' ending'
        (fun l hl => hP l (List.mem_append_right _ hl)) rfl]

/-! ### Recorded locations -/

private theorem step_of_lookup (width : UInt64) {s : Stream} {l : Location}
    (hused : l ∈ s.sources.used)
    (hl : s.lookup? w = some l) : ∃ d, s.step w width = .failed d := by
  obtain ⟨sources, opened, ending⟩ := s
  unfold lookup? at hl
  split at hl
  · next t name rest outer hopened =>
    obtain rfl : opened = (t :: name :: rest) :: outer := hopened
    split at hl
    · next hkinds =>
      obtain ⟨given, hgiven⟩ :=
        (Sources.load_alreadyUsed_iff w sources name.text).mpr ⟨l, hl, hused⟩
      exact ⟨_, step_include_error hkinds.1 hkinds.2 (Prod.ext rfl hgiven)⟩
    · cases hl
  · cases hl

/-- A step forgets no location. -/
theorem used_subset_of_next {s s' : Stream} {es : List Event}
    (h : s.step w width = .next es s') : s.sources.used ⊆ s'.sources.used := by
  obtain ⟨sources, opened, ending⟩ := s
  cases opened with
  | nil => cases h
  | cons ts outer =>
    rcases step_cases w width sources ts with ⟨d, hfail⟩ | ⟨es, r, files, last, hadded, hnext⟩
    · rw [hfail] at h
      cases h
    · rw [hnext] at h
      cases h
      rw [hadded]
      exact List.subset_append_left _ _

/-- A run that looks up a recorded location fails. -/
theorem failed_of_lookup {s : Stream} {l : Location} (hused : l ∈ s.sources.used)
    (hl : l ∈ s.lookups w width) : ∃ d, (s.run w width).2 = .failed d := by
  induction s using step_induction w width with
  | next s ih =>
    by_cases hnow : s.lookup? w = some l
    · obtain ⟨d, hstep⟩ := step_of_lookup width hused hnow
      exact ⟨d, by rw [run_of_failed hstep]⟩
    · cases hstep : s.step w width with
      | failed d => exact ⟨d, by rw [run_of_failed hstep]⟩
      | finished =>
        rw [lookups, List.mem_append, Option.mem_toList, or_iff_right hnow] at hl
        split at hl
        · next hnext => cases hstep.symm.trans hnext
        · cases hl
      | next es s' =>
        rw [lookups_of_next hstep, List.mem_append, Option.mem_toList, or_iff_right hnow] at hl
        obtain ⟨d, hd⟩ := ih es s' hstep (used_subset_of_next hstep hused) hl
        exact ⟨d, by rw [run_of_next hstep, hd]⟩

end Stream

namespace Compile

variable {w : Workspace} {width : UInt64} {searchPaths : List String}

/-- The stream of an outline that was given or loaded, with a record of used files. -/
def startStream (width : UInt64) (s : Sources) (fileName source : String) : Stream :=
  { sources := s, opened := [Outline.tokens width fileName source] }

/-- Reading a file and reading its text give the same result, where the text includes nothing from
the location of the file. A document of the file is always the document of its text, too. -/
theorem parseFile_eq_parseText {entry : String} {sources : Sources} {file : SourceFile}
    (hload : Sources.load { searchPaths } w entry = (sources, .ok file)) :
    (∀ d, parseFile w width searchPaths entry = .ok d →
        parseText w width searchPaths file.name file.contents = .ok d) ∧
      (file.location ∉
          (startStream width { searchPaths } file.name file.contents).lookups w width →
        parseFile w width searchPaths entry =
          parseText w width searchPaths file.name file.contents) := by
  obtain ⟨-, rfl⟩ := Sources.load_cases hload
  let fresh : Sources := { searchPaths }
  let recorded := fresh.adding [file.location]
  let text := startStream width fresh file.name file.contents
  let opened := startStream width recorded file.name file.contents
  have hfile : parseFile w width searchPaths entry = readStream w width opened := by
    simp only [parseFile, hload]
    rfl
  have hagrees : fresh.Agrees (· ≠ file.location) recorded :=
    ⟨rfl, fun l hl => by simp [fresh, recorded, Sources.adding, hl]⟩
  constructor
  · intro d hd
    rw [hfile] at hd
    -- A run that ends in a document looked nothing up at the recorded location.
    have hunread : file.location ∉ opened.lookups w width := by
      intro hl
      have hused : file.location ∈ opened.sources.used := by
        simp [opened, startStream, recorded, Sources.adding]
      obtain ⟨problem, hfailed⟩ := Stream.failed_of_lookup hused hl
      obtain ⟨-, ending, hfinished⟩ := Builder.tokens_of_build hd
      cases hfinished.symm.trans hfailed
    have hrun : opened.run w width = text.run w width :=
      Stream.run_of_agrees hagrees.symm _ _ fun l hl he => hunread (he ▸ hl)
    rw [readStream, hrun] at hd
    exact hd
  · intro hunread
    have hrun : text.run w width = opened.run w width :=
      Stream.run_of_agrees hagrees _ _ fun l hl he => hunread (he ▸ hl)
    rw [hfile, readStream, ← hrun]
    rfl

/-! ### A file with an include -/

/-- A context that includes another one. -/
def mainOutline : String := "Context:\n    a\n    Include: part.m6r\n"

/-- The outline beside the file that it includes. -/
def mainWorkspace : Workspace where
  tree.entries :=
    [(["main.m6r"], .file (Text.Utf8.encode mainOutline)),
      (["part.m6r"], .file (Text.Utf8.encode "Context:\n    b\n"))]

/-- The file and its text have one document: the file includes another one, but not itself. -/
theorem parseFile_eq_parseText_main :
    ∃ d, parseText mainWorkspace 4 [] "main.m6r" mainOutline = .ok d ∧
      parseFile mainWorkspace 4 [] "main.m6r" = .ok d := by
  have hload : Sources.load {} mainWorkspace "main.m6r" = ({ used := [["main.m6r"]] },
      .ok { name := "main.m6r", location := ["main.m6r"], contents := mainOutline }) := by
    decide +kernel
  have hended : (Round.after mainWorkspace 4 32 (Origin.start mainWorkspace 4 []
      (.text "main.m6r" mainOutline))).document?.isSome = true := by decide +kernel
  obtain ⟨d, hd⟩ := Option.isSome_iff_exists.mp hended
  have htext : parseText mainWorkspace 4 [] "main.m6r" mainOutline = .ok d :=
    Origin.parse_of_ended (Round.ended_of_document? hd)
  refine ⟨d, htext, ((parseFile_eq_parseText hload).2 ?_).trans htext⟩
  have hlookups : Stream.lookupsWithin? mainWorkspace 4 32
      (startStream 4 {} "main.m6r" mainOutline) = some [["part.m6r"]] := by decide +kernel
  rw [Stream.lookups_of_within hlookups]
  decide

end Compile

end PromptOutline
