import PromptOutline.Proofs.Embedded
import PromptOutline.Proofs.Lookups

/-!
# More search paths

Names and patterns are tried in order, and the first one that leads anywhere is taken. What was
found along some search paths is therefore found first along more of them, whatever the further ones
hold. A reading that reports no problem found everything that it looked for, so it takes the same
steps.
-/

namespace PromptOutline

namespace Sources

variable {w : Workspace} {s s' : Sources}

/-- The same record with further search paths behind its own. -/
def searching (s : Sources) (more : List String) : Sources :=
  { s with searchPaths := s.searchPaths ++ more }

private theorem candidates_searching (s : Sources) (more : List String) (name : String) :
    s.candidates name <+: (s.searching more).candidates name := by
  unfold candidates searching
  split
  · exact List.prefix_rfl
  · rw [List.map_append, ← List.cons_append]
    exact List.prefix_append _ _

private theorem patterns_searching (s : Sources) (more : List String) (pattern : String) :
    s.patterns pattern <+: (s.searching more).patterns pattern := by
  unfold patterns searching
  dsimp only
  split
  · exact List.prefix_rfl
  · rw [List.map_append, ← List.cons_append]
    exact List.prefix_append _ _

private theorem resolve_searching {name path : String} (h : s.resolve w name = .ok path)
    (more : List String) : (s.searching more).resolve w name = .ok path := by
  unfold resolve at h ⊢
  split at h
  · next found hfind =>
    cases h
    obtain ⟨others, hothers⟩ := candidates_searching s more name
    rw [← hothers, List.find?_append, hfind, Option.some_or]
  · cases h

private theorem readOnce_searching (s : Sources) (more : List String) (name path : String)
    (l : Location) :
    (s.searching more).readOnce w name path l =
      ((s.readOnce w name path l).1.searching more, (s.readOnce w name path l).2) := by
  have hused : (s.searching more).used = s.used := rfl
  unfold readOnce
  rw [hused]
  split <;> rfl

/-- An outline that is loaded is loaded from the same place along more search paths. -/
theorem load_searching {name : String} {f : SourceFile} (h : s.load w name = (s', .ok f))
    (more : List String) :
    (s.searching more).load w name = (s'.searching more, .ok f) := by
  unfold load at h ⊢
  cases hresolve : s.resolve w name with
  | error fault =>
    rw [hresolve] at h
    cases h
  | ok path =>
    rw [resolve_searching hresolve more]
    simp only [hresolve] at h ⊢
    split at h
    · cases h
    · next hdirectory =>
      rw [if_neg hdirectory]
      cases hlocate : w.locate path with
      | error fault =>
        rw [hlocate] at h
        cases h
      | ok l =>
        simp only [hlocate] at h ⊢
        rw [readOnce_searching, h]

private theorem firstMatch_append {patterns : List (List Char)} {path : String}
    {paths : List String} (h : firstMatch w patterns = .ok (path :: paths))
    (more : List (List Char)) : firstMatch w (patterns ++ more) = .ok (path :: paths) := by
  induction patterns with
  | nil => cases h
  | cons pattern rest ih =>
    simp only [List.cons_append, firstMatch] at h ⊢
    split at h
    · cases h
    · exact ih h
    · exact h

/-- A pattern that matches files matches the same files along more search paths. -/
theorem expand_searching {pattern path : String} {paths : List String}
    (h : s.expand w pattern = .ok (path :: paths)) (more : List String) :
    (s.searching more).expand w pattern = .ok (path :: paths) := by
  unfold expand at h ⊢
  split at h
  · cases h
  · next found hfirst =>
    cases h
    obtain ⟨others, hothers⟩ := patterns_searching s more pattern
    rw [← hothers, firstMatch_append hfirst]

end Sources

namespace Stream

variable {w : Workspace} {width : UInt64}

/-- The same stream with further search paths. -/
def searching (s : Stream) (more : List String) : Stream :=
  { s with sources := s.sources.searching more }

/-- An embedding without a problem opens the files that its pattern matches. -/
theorem embedFiles_searching {s s' : Stream} {pattern : Token} {rest : List Token}
    {outer : List (List Token)} {es : List Event}
    (h : embedFiles w s pattern rest outer = .next es s') (hes : ∀ d, .problem d ∉ es)
    (more : List String) :
    embedFiles w (s.searching more) pattern rest outer = .next es (s'.searching more) := by
  unfold embedFiles at h
  split at h
  · split at h
    · cases h
    · cases h
      exact absurd List.mem_cons_self (hes _)
  · cases h
    exact absurd List.mem_cons_self (hes _)
  · next path paths hexpand =>
    have hexpand' : (s.searching more).sources.expand w pattern.text = .ok (path :: paths) :=
      Sources.expand_searching hexpand more
    simp only [embedFiles, hexpand']
    split at h
    · cases h
    · cases h
      rfl

/-- A step without a problem is the same along more search paths. -/
theorem step_searching {s s' : Stream} {es : List Event} (h : s.step w width = .next es s')
    (hes : ∀ d, .problem d ∉ es) (more : List String) :
    (s.searching more).step w width = .next es (s'.searching more) := by
  obtain ⟨sources, opened, ending⟩ := s
  rcases opened with _ | ⟨ts, outer⟩
  · cases h
  cases front ts with
  | nothing =>
    cases h
    rfl
  | ending ht =>
    rw [step_ending ht] at h
    cases h
    exact step_ending ht
  | token ht =>
    rw [step_token ht] at h
    cases h
    exact step_token ht
  | bare ht hbare =>
    rw [step_bare ht hbare] at h
    cases h
    exact absurd List.mem_cons_self (hes _)
  | @included t name rest ht hname =>
    rcases hload : sources.load w name.text with ⟨sources', fault | file⟩
    · rw [step_include_error ht hname hload] at h
      cases h
    · rw [step_include ht hname hload] at h
      cases h
      exact step_include ht hname (Sources.load_searching hload more)
  | @embedded t pattern rest ht hpattern =>
    rw [step_embedFiles ht hpattern] at h
    exact (step_embedFiles ht hpattern).trans (embedFiles_searching h hes more)

/-- A run that gives tokens alone and reaches the end of all files is the same along more search
paths. -/
theorem run_searching {s : Stream} {ending : Token}
    (hfinished : (s.run w width).2 = .finished ending)
    (hproblems : ∀ d, .problem d ∉ (s.run w width).1) (more : List String) :
    (s.searching more).run w width = s.run w width := by
  induction s using run_induction w width with
  | finished s hstep =>
    have hopened : (s.searching more).step w width = .finished := by
      obtain ⟨sources, opened, last⟩ := s
      rcases opened with _ | ⟨ts, outer⟩
      · rfl
      · rcases step_cases w width sources ts with ⟨d, hfail⟩ | ⟨es, s', files, last', -, hnext⟩
        · cases (hfail outer last).symm.trans hstep
        · cases (hnext outer last).symm.trans hstep
    rw [run_of_finished hopened, run_of_finished hstep]
    rfl
  | failed s d hstep =>
    rw [run_of_failed hstep] at hfinished
    cases hfinished
  | next s es s' hstep ih =>
    rw [run_of_next hstep] at hfinished hproblems
    have hes : ∀ d, .problem d ∉ es := fun d hd => hproblems d (List.mem_append_left _ hd)
    have hrest := ih hfinished fun d hd => hproblems d (List.mem_append_right _ hd)
    rw [run_of_next (step_searching hstep hes more), run_of_next hstep, hrest]

end Stream

namespace Compile

variable {w : Workspace} {width : UInt64}

private theorem readStream_searching {s : Stream} {d : Document} (h : readStream w width s = .ok d)
    (more : List String) : readStream w width (s.searching more) = .ok d := by
  have hbuild : Builder.build (s.run w width).1 (s.run w width).2 = .ok d := h
  obtain ⟨htokens, ending, hfinished⟩ := Builder.tokens_of_build hbuild
  have hproblems : ∀ p, .problem p ∉ (s.run w width).1 := by
    intro p hp
    rw [htokens] at hp
    simp at hp
  rw [readStream, Stream.run_searching hfinished hproblems]
  exact hbuild

end Compile

namespace Origin

variable {w : Workspace} {width : UInt64} {searchPaths : List String} {origin : Origin}

private theorem stream_searching {s : Stream} (h : origin.stream w width searchPaths = .ok s)
    (more : List String) :
    origin.stream w width (searchPaths ++ more) = .ok (s.searching more) := by
  cases origin with
  | text fileName source =>
    cases h
    rfl
  | file name =>
    simp only [stream] at h ⊢
    rcases hload : Sources.load { searchPaths } w name with ⟨sources, fault | f⟩
    · rw [hload] at h
      cases h
    · have hload' := Sources.load_searching hload more
      simp only [Sources.searching] at hload'
      rw [hload] at h
      cases h
      rw [hload']
      rfl

private theorem parse_searching {d : Document} (h : origin.parse w width searchPaths = .ok d)
    (more : List String) : origin.parse w width (searchPaths ++ more) = .ok d := by
  rw [parse_eq] at h ⊢
  cases hstream : origin.stream w width searchPaths with
  | error problems =>
    rw [hstream] at h
    cases h
  | ok s =>
    rw [hstream] at h
    rw [stream_searching hstream more]
    exact Compile.readStream_searching h more

/-- A document that was read is read just the same along more search paths, whatever they hold: from
a file or a text, with lines joined or not. -/
theorem read_with_more_paths (w : Workspace) (origin : Origin) (more : List String) :
    (∀ width searchPaths d, origin.parse w width searchPaths = .ok d →
        origin.parse w width (searchPaths ++ more) = .ok d) ∧
      ∀ (options : ReadOptions) d, origin.read w options = .ok d →
        origin.read w { options with searchPaths := options.searchPaths ++ more } = .ok d := by
  refine ⟨fun width searchPaths d h => parse_searching h more, fun options d h => ?_⟩
  rw [read_eq] at h ⊢
  cases hparse : origin.parse w options.width options.searchPaths with
  | error problems =>
    rw [hparse] at h
    cases h
  | ok parsed =>
    rw [hparse] at h
    rw [parse_searching hparse more]
    exact h

end Origin

/-! ### Two directories with files of one name -/

/-- An outline, and two directories that each hold a part and a note for it. -/
def librariesWorkspace : Workspace where
  tree.entries :=
    [(["main.m6r"], .file (Text.Utf8.encode "Context:\n    Embed: n.txt\n    Include: part.m6r\n")),
      (["a"], .directory), (["a", "part.m6r"], .file (Text.Utf8.encode "Context:\n    a\n")),
      (["a", "n.txt"], .file (Text.Utf8.encode "a\n")),
      (["b"], .directory), (["b", "part.m6r"], .file (Text.Utf8.encode "Context:\n    b\n")),
      (["b", "n.txt"], .file (Text.Utf8.encode "b\n"))]

/-- The files of the second directory change nothing: the document is that of the first one. -/
theorem read_with_more_paths_libraries :
    librariesWorkspace.exists? "b/part.m6r" = true ∧ librariesWorkspace.exists? "b/n.txt" = true ∧
      ∃ d, (Origin.file "main.m6r").parse librariesWorkspace 4 ["a"] = .ok d ∧
        (Origin.file "main.m6r").parse librariesWorkspace 4 ["a", "b"] = .ok d ∧
        (Origin.file "main.m6r").read librariesWorkspace { searchPaths := ["a", "b"] } =
          .ok d.joinLines := by
  have hended : (Round.after librariesWorkspace 4 40 (Origin.start librariesWorkspace 4 ["a"]
      (.file "main.m6r"))).document?.isSome = true := by decide +kernel
  obtain ⟨d, hd⟩ := Option.isSome_iff_exists.mp hended
  have hparse : (Origin.file "main.m6r").parse librariesWorkspace 4 ["a"] = .ok d :=
    Origin.parse_of_ended (Round.ended_of_document? hd)
  have hread : (Origin.file "main.m6r").read librariesWorkspace { searchPaths := ["a"] } =
      .ok d.joinLines := by
    rw [Origin.read_eq]
    exact congrArg (Except.map _) hparse
  have hmore := Origin.read_with_more_paths librariesWorkspace (.file "main.m6r") ["b"]
  exact ⟨by decide +kernel, by decide +kernel, d, hparse, hmore.1 4 ["a"] d hparse,
    hmore.2 { searchPaths := ["a"] } _ hread⟩

end PromptOutline
