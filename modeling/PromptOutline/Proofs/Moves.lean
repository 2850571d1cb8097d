import PromptOutline.Proofs.Lookups

/-!
# What a step of the stream can do

A step takes the first token out of the innermost file, and with a directive the text behind its
keyword. `Move` lists everything that can come of it, each case with what it depends on: the kinds
of these tokens and, for a directive, what the workspace holds. Both ways hold: every step is a
move, and a move is the step.
-/

namespace PromptOutline.Stream

/-- The tokens that the next step takes out of the innermost file. -/
def taking (s : Stream) : List Token :=
  match s.opened with
  | (t :: name :: _) :: _ =>
    if t.kind.isDirective ∧ name.kind = .keywordText then [t, name] else [t]
  | [t] :: _ => [t]
  | _ => []

/-- `Move w width s taken step`: the next step of `s` takes the tokens `taken` and leads to
`step`. -/
inductive Move (w : Workspace) (width : UInt64) (s : Stream) : List Token → Step → Prop where
  /-- No file is open. -/
  | finished (ho : s.opened = []) : Move w width s [] .finished
  /-- The innermost file has nothing left, not even the mark for its end. -/
  | dropped {outer : List (List Token)} (ho : s.opened = [] :: outer) :
      Move w width s [] (.next [] { s with opened := outer })
  | ended {t : Token} {rest : List Token} {outer : List (List Token)}
      (ho : s.opened = (t :: rest) :: outer) (ht : t.kind = .endOfFile) :
      Move w width s [t] (.next [] { s with opened := outer, ending := t })
  | given {t : Token} {rest : List Token} {outer : List (List Token)}
      (ho : s.opened = (t :: rest) :: outer) (ht : isInner t.kind = false) :
      Move w width s [t] (.next [.token t] { s with opened := rest :: outer })
  /-- A directive without a text behind it. -/
  | bare {t : Token} {rest : List Token} {outer : List (List Token)}
      (ho : s.opened = (t :: rest) :: outer) (ht : t.kind.isDirective = true)
      (hrest : Nameless rest) :
      Move w width s [t] (.next [bareDirective t] { s with opened := rest :: outer })
  | included {t name : Token} {rest : List Token} {outer : List (List Token)} {sources : Sources}
      {f : SourceFile} (ho : s.opened = (t :: name :: rest) :: outer) (ht : t.kind = .includeFile)
      (hname : name.kind = .keywordText) (hload : s.sources.load w name.text = (sources, .ok f)) :
      Move w width s [t, name] (.next [] { s with
        sources, opened := Outline.tokens width f.name f.contents :: rest :: outer })
  | notIncluded {t name : Token} {rest : List Token} {outer : List (List Token)}
      {sources : Sources} {fault : LoadFault} (ho : s.opened = (t :: name :: rest) :: outer)
      (ht : t.kind = .includeFile) (hname : name.kind = .keywordText)
      (hload : s.sources.load w name.text = (sources, .error fault)) :
      Move w width s [t, name] (.failed (.ofToken fault.message name))
  | embedded {t pattern : Token} {rest : List Token} {outer : List (List Token)}
      {paths : List String} {files : List SourceFile}
      (ho : s.opened = (t :: pattern :: rest) :: outer) (ht : t.kind = .embedFiles)
      (hpattern : pattern.kind = .keywordText)
      (hexpand : s.sources.expand w pattern.text = .ok paths) (hne : paths ≠ [])
      (hfiles : paths.mapM (Sources.loadEmbedded w) = .ok files) :
      Move w width s [t, pattern] (.next [] { s with
        opened := files.map (fun f => Embedding.tokens f.name f.contents) ++ rest :: outer })
  | notEmbedded {t pattern : Token} {rest : List Token} {outer : List (List Token)}
      {paths : List String} {fault : LoadFault}
      (ho : s.opened = (t :: pattern :: rest) :: outer) (ht : t.kind = .embedFiles)
      (hpattern : pattern.kind = .keywordText)
      (hexpand : s.sources.expand w pattern.text = .ok paths) (hne : paths ≠ [])
      (hfiles : paths.mapM (Sources.loadEmbedded w) = .error fault) :
      Move w width s [t, pattern] (.failed (.ofToken fault.message pattern))
  /-- A pattern that stands for no file. -/
  | unmatched {t pattern : Token} {rest : List Token} {outer : List (List Token)}
      (ho : s.opened = (t :: pattern :: rest) :: outer) (ht : t.kind = .embedFiles)
      (hpattern : pattern.kind = .keywordText)
      (hexpand : s.sources.expand w pattern.text = .ok []) :
      Move w width s [t, pattern] (.next
        [.problem (.ofToken s!"{pattern.text} does not match any files for 'Embed'" pattern)]
        { s with opened := rest :: outer })
  /-- A pattern that is none. -/
  | misspelt {t pattern : Token} {rest : List Token} {outer : List (List Token)}
      {fault : LoadFault} (ho : s.opened = (t :: pattern :: rest) :: outer)
      (ht : t.kind = .embedFiles) (hpattern : pattern.kind = .keywordText)
      (hexpand : s.sources.expand w pattern.text = .error fault) :
      Move w width s [t, pattern] (.next [.problem (.ofToken fault.message pattern)]
        { s with opened := rest :: outer })

/-- Expanding a pattern fails only where the pattern is none, and that is passed over. -/
theorem isFatal_of_expand {w : Workspace} {s : Sources} {pattern : String} {fault : LoadFault}
    (h : s.expand w pattern = .error fault) : fault.isFatal = false := by
  unfold Sources.expand at h
  split at h
  · cases h
    rfl
  · cases h

variable {w : Workspace} {width : UInt64} {s : Stream}

/-- A step at a token that is no directive takes that token. -/
theorem taking_of_kind {t : Token} {rest : List Token} {outer : List (List Token)}
    (ho : s.opened = (t :: rest) :: outer) (ht : t.kind.isDirective = false) :
    s.taking = [t] := by
  cases rest <;> simp [taking, ho, ht]

/-- A step at a directive without a text takes the directive. -/
theorem taking_bare {t : Token} {rest : List Token} {outer : List (List Token)}
    (ho : s.opened = (t :: rest) :: outer) (hrest : Nameless rest) : s.taking = [t] := by
  cases rest with
  | nil => simp [taking, ho]
  | cons name rest => simp [taking, ho, show name.kind ≠ .keywordText from hrest name rfl]

/-- A step at a directive with a text takes both. -/
theorem taking_directive {t name : Token} {rest : List Token} {outer : List (List Token)}
    (ho : s.opened = (t :: name :: rest) :: outer) (ht : t.kind.isDirective = true)
    (hname : name.kind = .keywordText) : s.taking = [t, name] := by
  simp [taking, ho, ht, hname]

private theorem move_embedFiles {t pattern : Token} {rest : List Token}
    {outer : List (List Token)} (ho : s.opened = (t :: pattern :: rest) :: outer)
    (ht : t.kind = .embedFiles) (hpattern : pattern.kind = .keywordText) :
    Move w width s [t, pattern] (embedFiles w s pattern rest outer) := by
  unfold embedFiles
  split
  · next fault hexpand =>
    rw [if_neg (by simp [isFatal_of_expand hexpand])]
    exact .misspelt ho ht hpattern hexpand
  · next hexpand => exact .unmatched ho ht hpattern hexpand
  · next hexpand =>
    split
    · next hfiles => exact .notEmbedded ho ht hpattern hexpand (by simp) hfiles
    · next hfiles => exact .embedded ho ht hpattern hexpand (by simp) hfiles

/-- Every step is a move. -/
theorem move_step (w : Workspace) (width : UInt64) (s : Stream) :
    Move w width s s.taking (s.step w width) := by
  cases ho : s.opened with
  | nil =>
    have htaking : s.taking = [] := by simp [taking, ho]
    simp only [step, ho, htaking]
    exact .finished ho
  | cons ts outer =>
    obtain ⟨sources, opened, ending⟩ := s
    obtain rfl : opened = ts :: outer := ho
    cases front ts with
    | nothing => exact .dropped rfl
    | ending ht =>
      rw [taking_of_kind rfl (by simp [ht, TokenKind.isDirective]), step_ending ht]
      exact .ended rfl ht
    | token ht =>
      have hdirective := ht
      simp only [isInner, Bool.or_eq_false_iff] at hdirective
      rw [taking_of_kind rfl hdirective.1, step_token ht]
      exact .given rfl ht
    | bare ht hrest =>
      rw [taking_bare rfl hrest, step_bare ht hrest]
      exact .bare rfl ht hrest
    | @included t name rest ht hname =>
      rw [taking_directive rfl (by simp [ht, TokenKind.isDirective]) hname]
      rcases hload : sources.load w name.text with ⟨sources', fault | f⟩
      · rw [step_include_error ht hname hload]
        exact .notIncluded rfl ht hname hload
      · rw [step_include ht hname hload]
        exact .included rfl ht hname hload
    | @embedded t pattern rest ht hpattern =>
      rw [taking_directive rfl (by simp [ht, TokenKind.isDirective]) hpattern,
        step_embedFiles ht hpattern]
      exact move_embedFiles rfl ht hpattern

/-- A move is the step. -/
theorem Move.step_eq {taken : List Token} {x : Step} (h : Move w width s taken x) :
    s.step w width = x := by
  obtain ⟨sources, opened, ending⟩ := s
  cases h with
  | finished ho => cases ho; rfl
  | dropped ho => cases ho; rfl
  | ended ho ht => cases ho; exact step_ending ht
  | given ho ht => cases ho; exact step_token ht
  | bare ho ht hrest => cases ho; exact step_bare ht hrest
  | included ho ht hname hload => cases ho; exact step_include ht hname hload
  | notIncluded ho ht hname hload => cases ho; exact step_include_error ht hname hload
  | @embedded t pattern rest outer paths files ho ht hpattern hexpand hne hfiles =>
    cases ho
    obtain ⟨path, paths, rfl⟩ := List.exists_cons_of_ne_nil hne
    rw [step_embedFiles ht hpattern]
    simp only at hexpand
    simp only [embedFiles, hexpand, hfiles]
  | @notEmbedded t pattern rest outer paths fault ho ht hpattern hexpand hne hfiles =>
    cases ho
    obtain ⟨path, paths, rfl⟩ := List.exists_cons_of_ne_nil hne
    rw [step_embedFiles ht hpattern]
    simp only at hexpand
    simp only [embedFiles, hexpand, hfiles]
  | unmatched ho ht hpattern hexpand =>
    cases ho
    rw [step_embedFiles ht hpattern]
    simp only at hexpand
    simp only [embedFiles, hexpand]
  | misspelt ho ht hpattern hexpand =>
    cases ho
    rw [step_embedFiles ht hpattern]
    simp only at hexpand
    simp [embedFiles, hexpand, isFatal_of_expand hexpand]

end PromptOutline.Stream
