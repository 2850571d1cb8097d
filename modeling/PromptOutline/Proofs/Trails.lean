import PromptOutline.Proofs.LinePrefix
import PromptOutline.Proofs.Moves
import PromptOutline.Proofs.Rounds

/-!
# The trail of a reading

A trail follows a reading step by step and knows of every open outline where it stands and which
line the token taken last stands on. While a file that an outline includes is read, that is the line
of the directive. It also knows from where files were embedded; the locations of outlines are
recorded by the sources anyway.

Along a trail no two open outlines have one location, every location is recorded, and lines only go
up: what waits in an outline stands on the line taken last or on later ones.
-/

namespace PromptOutline

/-! ### Steps and files -/

namespace Stream

/-- The files that the next step of a stream embeds. -/
def embeddings (w : Workspace) (s : Stream) : List SourceFile :=
  match s.opened with
  | (t :: pattern :: _) :: _ =>
    if t.kind = .embedFiles ∧ pattern.kind = .keywordText then
      match s.sources.expand w pattern.text with
      | .ok paths => (paths.mapM (Sources.loadEmbedded w)).toOption.getD []
      | .error _ => []
    else []
  | _ => []

/-- Whether the next step ends the innermost file. -/
def ends (s : Stream) : Bool :=
  match s.opened with
  | [] => false
  | [] :: _ => true
  | (t :: _) :: _ => t.kind == .endOfFile

/-- `Passes w sources ts taken rest es`: tokens that a step takes out of the innermost file `ts`
without opening another one, what is left of that file, and the events of the step. -/
inductive Passes (w : Workspace) (sources : Sources) :
    List Token → List Token → List Token → List Event → Prop where
  | given {t : Token} {rest : List Token} (ht : isInner t.kind = false) :
      Passes w sources (t :: rest) [t] rest [.token t]
  | bare {t : Token} {rest : List Token} (ht : t.kind.isDirective = true) (hrest : Nameless rest) :
      Passes w sources (t :: rest) [t] rest [bareDirective t]
  | unmatched {t pattern : Token} {rest : List Token} (ht : t.kind = .embedFiles)
      (hpattern : pattern.kind = .keywordText)
      (hexpand : sources.expand w pattern.text = .ok []) :
      Passes w sources (t :: pattern :: rest) [t, pattern] rest
        [.problem (.ofToken s!"{pattern.text} does not match any files for 'Embed'" pattern)]
  | misspelt {t pattern : Token} {rest : List Token} {fault : LoadFault} (ht : t.kind = .embedFiles)
      (hpattern : pattern.kind = .keywordText)
      (hexpand : sources.expand w pattern.text = .error fault) :
      Passes w sources (t :: pattern :: rest) [t, pattern] rest
        [.problem (.ofToken fault.message pattern)]

/-- Passing a token on is a move of the stream. -/
theorem Passes.move {w : Workspace} {width : UInt64} {s : Stream} {ts taken rest : List Token}
    {outer : List (List Token)} {es : List Event} (h : Passes w s.sources ts taken rest es)
    (ho : s.opened = ts :: outer) :
    Move w width s taken (.next es { s with opened := rest :: outer }) := by
  cases h with
  | given ht => exact .given ho ht
  | bare ht hrest => exact .bare ho ht hrest
  | unmatched ht hpattern hexpand => exact .unmatched ho ht hpattern hexpand
  | misspelt ht hpattern hexpand => exact .misspelt ho ht hpattern hexpand

/-- What is passed on is taken from the front. -/
theorem Passes.sublist {w : Workspace} {sources : Sources} {ts taken rest : List Token}
    {es : List Event} (h : Passes w sources ts taken rest es) :
    ∃ t more, taken = t :: more ∧ ts = t :: (more ++ rest) := by
  cases h with
  | @given t => exact ⟨t, [], rfl, rfl⟩
  | @bare t => exact ⟨t, [], rfl, rfl⟩
  | @unmatched t pattern => exact ⟨t, [pattern], rfl, rfl⟩
  | @misspelt t pattern => exact ⟨t, [pattern], rfl, rfl⟩

/-- What is passed on is what the next step takes. -/
theorem Passes.taking {w : Workspace} {s : Stream} {ts taken rest : List Token}
    {outer : List (List Token)} {es : List Event} (h : Passes w s.sources ts taken rest es)
    (ho : s.opened = ts :: outer) : s.taking = taken := by
  cases h with
  | given ht =>
    simp only [isInner, Bool.or_eq_false_iff] at ht
    exact taking_of_kind ho ht.1
  | bare ht hrest => exact taking_bare ho hrest
  | unmatched ht hpattern => exact taking_directive ho (by rw [ht]; rfl) hpattern
  | misspelt ht hpattern => exact taking_directive ho (by rw [ht]; rfl) hpattern

/-- What the next step takes stands in front of the innermost file. -/
theorem opened_of_taking {s : Stream} {t : Token} {more : List Token} (h : s.taking = t :: more) :
    ∃ rest outer, s.opened = (t :: rest) :: outer := by
  unfold taking at h
  split at h
  · next ho =>
    split at h <;> cases h <;> exact ⟨_, _, ho⟩
  · next ho => cases h; exact ⟨_, _, ho⟩
  · cases h

end Stream

/-! ### Trails -/

/-- An outline being read. -/
structure OpenOutline where
  /-- Where it stands; `none` for an outline that was given as text. -/
  location : Option Location
  /-- The line of the token taken last, that of the directive with a file that was included. -/
  line : Nat := 0
  deriving Repr, DecidableEq, Inhabited

/-- A reading under way, with the files it has open. -/
structure Trail where
  stream : Stream
  builder : Builder := {}
  /-- The open files, the innermost first; `none` for an embedded one. -/
  files : List (Option OpenOutline)
  /-- The locations that files were embedded from so far. -/
  embedded : List Location := []

namespace Trail

/-- The open files, the innermost one at the line of the token that the next step takes. -/
def current (h : Trail) : List (Option OpenOutline) :=
  match h.files, h.stream.taking with
  | file :: outer, t :: _ => file.map (fun f => { f with line := t.line }) :: outer
  | files, _ => files

/-- One step of the stream, if it leads on. -/
def advance (w : Workspace) (width : UInt64) (h : Trail) : Option Trail :=
  match h.stream.step w width with
  | .next es s =>
    some {
      stream := s
      builder := es.foldl Builder.event h.builder
      files := (h.stream.outline? w).toList.map (fun f => some { location := some f.location }) ++
        ((h.stream.embeddings w).map (fun _ => none) ++
          if h.stream.ends then h.current.tail else h.current)
      embedded := h.embedded ++ (h.stream.embeddings w).map (·.location) }
  | _ => none

/-- As many steps, if they lead on. -/
def after (w : Workspace) (width : UInt64) : Nat → Trail → Option Trail
  | 0, h => some h
  | n + 1, h => (h.advance w width).bind (after w width n)

/-- `Goes w width h h'`: a step leads from `h` to `h'`. The innermost file ends, tokens are taken
out of it, or a directive opens files on top of it. -/
inductive Goes (w : Workspace) (width : UInt64) (h : Trail) : Trail → Prop where
  | dropped {outer : List (List Token)} (ho : h.stream.opened = [] :: outer) :
      Goes w width h { h with stream.opened := outer, files := h.current.tail }
  | ended {t : Token} {rest : List Token} {outer : List (List Token)}
      (ho : h.stream.opened = (t :: rest) :: outer) (ht : t.kind = .endOfFile) :
      Goes w width h
        { h with stream.opened := outer, stream.ending := t, files := h.current.tail }
  | passed {ts taken rest : List Token} {outer : List (List Token)} {es : List Event}
      (ho : h.stream.opened = ts :: outer)
      (hpasses : Stream.Passes w h.stream.sources ts taken rest es) :
      Goes w width h
        { h with
          stream.opened := rest :: outer
          builder := es.foldl Builder.event h.builder
          files := h.current }
  | included {t name : Token} {rest : List Token} {outer : List (List Token)} {sources : Sources}
      {f : SourceFile} (ho : h.stream.opened = (t :: name :: rest) :: outer)
      (ht : t.kind = .includeFile) (hname : name.kind = .keywordText)
      (hload : h.stream.sources.load w name.text = (sources, .ok f)) :
      Goes w width h
        { h with
          stream.sources := sources
          stream.opened := Outline.tokens width f.name f.contents :: rest :: outer
          files := some { location := some f.location } :: h.current }
  | embedded {t pattern : Token} {rest : List Token} {outer : List (List Token)}
      {paths : List String} {files : List SourceFile}
      (ho : h.stream.opened = (t :: pattern :: rest) :: outer) (ht : t.kind = .embedFiles)
      (hpattern : pattern.kind = .keywordText)
      (hexpand : h.stream.sources.expand w pattern.text = .ok paths) (hne : paths ≠ [])
      (hfiles : paths.mapM (Sources.loadEmbedded w) = .ok files) :
      Goes w width h
        { h with
          stream.opened :=
            files.map (fun f => Embedding.tokens f.name f.contents) ++ rest :: outer
          files := files.map (fun _ => none) ++ h.current
          embedded := h.embedded ++ files.map (·.location) }

variable {w : Workspace} {width : UInt64} {h h' : Trail}

/-- What an advance leads to, from what its step does. -/
theorem eq_of_advance {es : List Event} {s : Stream}
    (hadvance : h.advance w width = some h') (hstep : h.stream.step w width = .next es s)
    (outline? : Option SourceFile) (embeddings : List SourceFile) (ends : Bool)
    (houtline : h.stream.outline? w = outline?)
    (hembeddings : h.stream.embeddings w = embeddings) (hends : h.stream.ends = ends) :
    h' = {
      stream := s
      builder := es.foldl Builder.event h.builder
      files := outline?.toList.map (fun f => some { location := some f.location }) ++
        (embeddings.map (fun _ => none) ++ if ends then h.current.tail else h.current)
      embedded := h.embedded ++ embeddings.map (·.location) } := by
  simp only [advance, hstep, houtline, hembeddings, hends, Option.some.injEq] at hadvance
  exact hadvance.symm

/-- A step that passes tokens opens no file. -/
theorem opens_nothing {ts taken rest : List Token} {outer : List (List Token)}
    {es : List Event} (ho : h.stream.opened = ts :: outer)
    (hpasses : Stream.Passes w h.stream.sources ts taken rest es) :
    h.stream.outline? w = none ∧ h.stream.embeddings w = [] ∧ h.stream.ends = false := by
  have hbare {t : Token} {rest : List Token} (hrest : Stream.Nameless rest)
      (ho : h.stream.opened = (t :: rest) :: outer) :
      h.stream.outline? w = none ∧ h.stream.embeddings w = [] := by
    cases rest with
    | nil => simp [Stream.outline?, Stream.embeddings, ho]
    | cons name rest =>
      have hname : name.kind ≠ .keywordText := hrest name rfl
      simp [Stream.outline?, Stream.embeddings, ho, hname]
  cases hpasses with
  | @given t rest ht =>
    have hkind : t.kind ≠ .includeFile ∧ t.kind ≠ .embedFiles ∧ t.kind ≠ .endOfFile := by
      refine ⟨?_, ?_, ?_⟩ <;> rintro hk <;> simp [hk, Stream.isInner, TokenKind.isDirective] at ht
    cases rest <;> simp [Stream.outline?, Stream.embeddings, Stream.ends, ho, hkind]
  | @bare t rest ht hrest =>
    have hkind : t.kind ≠ .endOfFile := fun hk => by simp [hk, TokenKind.isDirective] at ht
    obtain ⟨hnone, hnil⟩ := hbare hrest ho
    exact ⟨hnone, hnil, by simp [Stream.ends, ho, hkind]⟩
  | unmatched ht hpattern hexpand =>
    simp [Stream.outline?, Stream.embeddings, Stream.ends, ho, ht, hpattern, hexpand,
      Except.toOption, pure, Except.pure]
  | misspelt ht hpattern hexpand =>
    simp [Stream.outline?, Stream.embeddings, Stream.ends, ho, ht, hpattern, hexpand]

/-- An advance is one of the ways in which a trail goes on. -/
theorem goes_of_advance (hadvance : h.advance w width = some h') : Goes w width h h' := by
  have hpassed {ts taken rest : List Token} {outer : List (List Token)} {es : List Event}
      (ho : h.stream.opened = ts :: outer)
      (hpasses : Stream.Passes w h.stream.sources ts taken rest es) : Goes w width h h' := by
    obtain ⟨hnone, hnil, hends⟩ := opens_nothing ho hpasses
    obtain rfl := eq_of_advance hadvance (hpasses.move ho).step_eq _ _ _ hnone hnil hends
    have hgoes : Goes w width h _ := .passed ho hpasses
    simpa using hgoes
  have hmove := Stream.move_step w width h.stream
  generalize hx : h.stream.step w width = x at hmove
  generalize h.stream.taking = taken at hmove
  cases hmove with
  | finished ho =>
    simp [advance, hx] at hadvance
  | dropped ho =>
    obtain rfl := eq_of_advance hadvance hx none [] true
      (by simp [Stream.outline?, ho]) (by simp [Stream.embeddings, ho]) (by simp [Stream.ends, ho])
    have hgoes : Goes w width h _ := .dropped ho
    simpa using hgoes
  | @ended t rest outer ho ht =>
    obtain rfl := eq_of_advance hadvance hx none [] true
      (by cases rest <;> simp [Stream.outline?, ho, ht])
      (by cases rest <;> simp [Stream.embeddings, ho, ht]) (by simp [Stream.ends, ho, ht])
    have hgoes : Goes w width h _ := .ended ho ht
    simpa using hgoes
  | given ho ht => exact hpassed ho (.given ht)
  | bare ho ht hrest => exact hpassed ho (.bare ht hrest)
  | @included t name rest outer sources f ho ht hname hload =>
    obtain rfl := eq_of_advance hadvance hx (some f) [] false
      (by simp [Stream.outline?, ho, ht, hname, hload, Except.toOption])
      (by simp [Stream.embeddings, ho, ht]) (by simp [Stream.ends, ho, ht])
    have hgoes : Goes w width h _ := .included ho ht hname hload
    simpa using hgoes
  | notIncluded => simp [advance, hx] at hadvance
  | @embedded t pattern rest outer paths files ho ht hpattern hexpand hne hfiles =>
    obtain rfl := eq_of_advance hadvance hx none files false
      (by simp [Stream.outline?, ho, ht])
      (by simp [Stream.embeddings, ho, ht, hpattern, hexpand, hfiles, Except.toOption])
      (by simp [Stream.ends, ho, ht])
    have hgoes : Goes w width h _ := .embedded ho ht hpattern hexpand hne hfiles
    simpa using hgoes
  | notEmbedded => simp [advance, hx] at hadvance
  | unmatched ho ht hpattern hexpand => exact hpassed ho (.unmatched ht hpattern hexpand)
  | misspelt ho ht hpattern hexpand => exact hpassed ho (.misspelt ht hpattern hexpand)

/-! ### What holds along a trail -/

/-- The locations of open outlines. -/
def locations (files : List (Option OpenOutline)) : List (Option Location) :=
  (files.filterMap id).map (·.location)

/-- The locations of open files are those of the outlines among them. -/
theorem mem_locations {files : List (Option OpenOutline)} {p : Option Location} :
    p ∈ locations files ↔ ∃ f, some f ∈ files ∧ f.location = p := by
  simp [locations]

/-- What waits in an outline stands on its line or later ones, in order. -/
def Waits (file : Option OpenOutline) (ts : List Token) : Prop :=
  ∀ f ∈ file, Outline.Ascending ts ∧ ∀ t ∈ ts, f.line ≤ t.line

/-- What holds along a trail. -/
structure Sound (h : Trail) : Prop where
  lines : List.Forall₂ Waits h.files h.stream.opened
  used : ∀ f l, some f ∈ h.files → f.location = some l → l ∈ h.stream.sources.used
  distinct : (locations h.files).Nodup

namespace Sound

/-- The innermost file has the tokens that come next. -/
theorem files_eq {ts : List Token} {outer : List (List Token)} (hs : h.Sound)
    (ho : h.stream.opened = ts :: outer) :
    ∃ file files, h.files = file :: files ∧ Waits file ts ∧ List.Forall₂ Waits files outer := by
  have hlines := hs.lines
  rw [ho] at hlines
  cases hfiles : h.files with
  | nil => rw [hfiles] at hlines; cases hlines
  | cons file files =>
    rw [hfiles] at hlines
    obtain ⟨hfile, hrest⟩ := List.forall₂_cons.mp hlines
    exact ⟨file, files, rfl, hfile, hrest⟩

end Sound

/-- While a token is taken, the innermost file is at the line of that token. -/
theorem current_eq {file : Option OpenOutline} {files : List (Option OpenOutline)} {t : Token}
    {more : List Token} (hfiles : h.files = file :: files) (ht : h.stream.taking = t :: more) :
    h.current = file.map (fun f => { f with line := t.line }) :: files := by
  simp only [current, hfiles, ht]

/-- Taking a token leaves the open files at their locations. -/
theorem locations_current (h : Trail) : locations h.current = locations h.files := by
  unfold current
  split
  · next file outer t more hfiles ht =>
    rw [hfiles]
    cases file <;> rfl
  · rfl

private theorem Waits.rest {file : Option OpenOutline} {t : Token} {more rest : List Token}
    (hw : Waits file (t :: (more ++ rest))) :
    Waits (file.map fun f => { f with line := t.line }) rest := by
  intro f hf
  obtain ⟨g, hg, rfl⟩ := Option.map_eq_some_iff.mp hf
  obtain ⟨hafter, hsorted⟩ := List.pairwise_cons.mp (hw g hg).1
  exact ⟨(List.pairwise_append.mp hsorted).2.1, fun u hu => hafter u (List.mem_append_right _ hu)⟩

/-- An open outline was open before, on the same line or an earlier one. -/
theorem Sound.mem_of_current (hs : h.Sound) {f : OpenOutline} (hf : some f ∈ h.current) :
    ∃ g, some g ∈ h.files ∧ g.location = f.location ∧ g.line ≤ f.line := by
  unfold current at hf
  split at hf
  · next file outer t more hfiles ht =>
    rw [hfiles]
    rcases List.mem_cons.mp hf with hhead | hf
    · obtain ⟨g, rfl, rfl⟩ := Option.map_eq_some_iff.mp hhead.symm
      obtain ⟨rest, outer', ho⟩ := Stream.opened_of_taking ht
      obtain ⟨file', files', hfiles', hwaits, -⟩ := hs.files_eq ho
      rw [hfiles] at hfiles'
      cases hfiles'
      exact ⟨g, List.mem_cons_self, rfl, (hwaits g rfl).2 t List.mem_cons_self⟩
    · exact ⟨f, List.mem_cons_of_mem _ hf, rfl, Nat.le_refl _⟩
  · exact ⟨f, hf, rfl, Nat.le_refl _⟩

/-- An open outline is one that was open before the step, or its location is recorded by the
step. -/
theorem Goes.mem_files (hg : Goes w width h h') {f : OpenOutline} (hf : some f ∈ h'.files) :
    some f ∈ h.current ∨ ∃ l, f.location = some l ∧ l ∉ h.stream.sources.used ∧
      l ∈ h'.stream.sources.used := by
  cases hg with
  | dropped ho => exact .inl (List.mem_of_mem_tail hf)
  | ended ho ht => exact .inl (List.mem_of_mem_tail hf)
  | passed ho hpasses => exact .inl hf
  | included ho ht hname hload =>
    rcases List.mem_cons.mp hf with hnew | hf
    · obtain ⟨hused, hfresh, -⟩ := Sources.load_eq_ok hload
      cases hnew
      exact .inr ⟨_, rfl, hfresh, by simp [hused]⟩
    · exact .inl hf
  | embedded ho ht hpattern hexpand hne hfiles =>
    rcases List.mem_append.mp hf with hnew | hf
    · simp at hnew
    · exact .inl hf

/-- A trail that goes on keeps what is recorded. -/
theorem Goes.used_subset (hg : Goes w width h h') :
    h.stream.sources.used ⊆ h'.stream.sources.used := by
  cases hg with
  | included ho ht hname hload =>
    obtain ⟨hused, -⟩ := Sources.load_eq_ok hload
    simp [hused]
  | _ => exact List.Subset.refl _

private theorem locations_tail {files : List (Option OpenOutline)} :
    (locations files.tail).Sublist (locations files) :=
  ((List.tail_sublist files).filterMap id).map _

/-- A step keeps what holds along a trail. -/
theorem Sound.goes (hs : h.Sound) (hg : Goes w width h h') : h'.Sound where
  lines := by
    have hcurrent {t : Token} (more : List Token) {ts rest : List Token}
        {outer : List (List Token)} (ho : h.stream.opened = ts :: outer)
        (hts : ts = t :: (more ++ rest))
        (htaking : h.stream.taking = t :: more) :
        List.Forall₂ Waits h.current (rest :: outer) := by
      subst hts
      obtain ⟨file, files, hfiles, hwaits, hrest⟩ := hs.files_eq ho
      rw [current_eq hfiles htaking]
      exact .cons hwaits.rest hrest
    cases hg with
    | @dropped outer ho =>
      obtain ⟨file, files, hfiles, -, hrest⟩ := hs.files_eq ho
      have htaking : h.stream.taking = [] := by simp [Stream.taking, ho]
      simpa [current, hfiles, htaking] using hrest
    | @ended t rest outer ho ht =>
      obtain ⟨file, files, hfiles, -, hrest⟩ := hs.files_eq ho
      have htaking := Stream.taking_of_kind ho (by rw [ht]; rfl)
      simpa [current_eq hfiles htaking] using hrest
    | passed ho hpasses =>
      obtain ⟨t, more, rfl, hts⟩ := hpasses.sublist
      exact hcurrent more ho hts (hpasses.taking ho)
    | @included t name rest outer sources f ho ht hname hload =>
      refine .cons ?_ (hcurrent [name] ho rfl
        (Stream.taking_directive ho (by rw [ht]; rfl) hname))
      rintro g hg
      cases hg
      exact ⟨Outline.ascending_tokens .., fun _ _ => Nat.zero_le _⟩
    | @embedded t pattern rest outer paths files ho ht hpattern hexpand hne hfiles =>
      have hrest := hcurrent [pattern] ho rfl
        (Stream.taking_directive ho (by rw [ht]; rfl) hpattern)
      clear hfiles
      induction files with
      | nil => exact hrest
      | cons f files ih => exact .cons (fun g hg => by cases hg) ih
  used f l hf hl := by
    rcases hg.mem_files hf with hf | ⟨k, hk, -, hused⟩
    · obtain ⟨g, hmem, hlocation, -⟩ := hs.mem_of_current hf
      exact hg.used_subset (hs.used g l hmem (hlocation.trans hl))
    · cases hk.symm.trans hl
      exact hused
  distinct := by
    have hcurrent : (locations h.current).Nodup := by
      rw [locations_current]
      exact hs.distinct
    cases hg with
    | dropped ho => exact hcurrent.sublist locations_tail
    | ended ho ht => exact hcurrent.sublist locations_tail
    | passed ho hpasses => exact hcurrent
    | included ho ht hname hload =>
      refine List.nodup_cons.mpr ⟨fun hm => ?_, hcurrent⟩
      obtain ⟨f, hf, hl⟩ := mem_locations.mp hm
      obtain ⟨g, hmem, hlocation, -⟩ := hs.mem_of_current hf
      exact (Sources.load_eq_ok hload).2.1 (hs.used g _ hmem (hlocation.trans hl))
    | @embedded t pattern rest outer paths files ho ht hpattern hexpand hne hfiles =>
      have hnone : (files.map fun _ => (none : Option OpenOutline)).filterMap id = [] := by simp
      simpa [locations, List.filterMap_append, hnone] using hcurrent

end Trail

end PromptOutline
