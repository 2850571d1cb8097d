import PromptOutline.Proofs.Splicing

/-!
# What a run looks up

Every include of a run is looked up at one location, before it is known whether a file was read from
there already. A step looks at the innermost file only, and it records the location that it looks
up. So along a run the locations recorded so far and those yet to be looked up stay the same
together. A file may be cut in two wherever no name starts the second piece.
-/

namespace PromptOutline

/-! ### Lookups -/

/-- The location that a name is looked up at, whether or not it was used before. -/
def Sources.lookup? (s : Sources) (w : Workspace) (name : String) : Option Location :=
  match s.resolve w name with
  | .error _ => none
  | .ok path => if w.isDirectory path then none else (w.locate path).toOption

/-- A record with more locations. -/
def Sources.adding (s : Sources) (ls : List Location) : Sources := { s with used := s.used ++ ls }

namespace Sources

variable {w : Workspace} {s s' : Sources}

private theorem adding_nil (s : Sources) : s.adding [] = s := by simp [adding]

private theorem adding_adding (s : Sources) (ls ks : List Location) :
    (s.adding ls).adding ks = s.adding (ls ++ ks) := by simp [adding]

/-- Where a name leads depends on the search paths alone. -/
theorem lookup?_congr (h : s.searchPaths = s'.searchPaths) {name : String} :
    s.lookup? w name = s'.lookup? w name := by
  simp only [lookup?, resolve, candidates, h]

/-- A loaded outline is where its name is looked up, and just that location is added. -/
theorem load_cases {name : String} {f : SourceFile} (h : s.load w name = (s', .ok f)) :
    s.lookup? w name = some f.location ∧ s' = s.adding [f.location] := by
  cases hresolve : s.resolve w name with
  | error fault =>
    simp only [load, hresolve] at h
    cases h
  | ok path =>
    simp only [load, hresolve] at h
    simp only [lookup?, hresolve]
    split at h
    · cases h
    · next hdirectory =>
      rw [if_neg hdirectory]
      cases hlocate : w.locate path with
      | error fault =>
        simp only [hlocate] at h
        cases h
      | ok l =>
        simp only [hlocate, readOnce] at h
        split at h
        · cases h
        · split at h
          · cases h
          · cases h
            exact ⟨rfl, rfl⟩

end Sources

namespace Stream

variable {w : Workspace} {width : UInt64}

/-- The location that the next step of a stream looks an include up at. -/
def lookup? (w : Workspace) (s : Stream) : Option Location :=
  match s.opened with
  | (t :: name :: _) :: _ =>
    if t.kind = .includeFile ∧ name.kind = .keywordText then s.sources.lookup? w name.text
    else none
  | _ => none

/-- The locations that a run looks includes up at, in the order of the run. -/
def lookups (w : Workspace) (width : UInt64) (s : Stream) : List Location :=
  (s.lookup? w).toList ++
    match _h : s.step w width with
    | .next _ s' => lookups w width s'
    | _ => []
  termination_by (s.unused w, s.directives, s.waiting)
  decreasing_by exact below_of_step _h

/-- A run looks up what its first step looks up, and what is left of it does. -/
theorem lookups_of_next {s s' : Stream} {es : List Event} (h : s.step w width = .next es s') :
    s.lookups w width = (s.lookup? w).toList ++ s'.lookups w width := by
  rw [lookups]
  split
  · next hs => rw [h] at hs; cases hs; rfl
  · next hs => exact absurd h (hs es s')

/-- A run whose first step fails looks up what that step does. -/
theorem lookups_of_failed {s : Stream} {d : Diagnostic} (h : s.step w width = .failed d) :
    s.lookups w width = (s.lookup? w).toList := by
  rw [lookups]
  split
  · next hs => rw [h] at hs; cases hs
  · exact List.append_nil _

/-- The lookups of a run, if it is over within some steps. -/
def lookupsWithin? (w : Workspace) (width : UInt64) : Nat → Stream → Option (List Location)
  | 0, _ => none
  | steps + 1, s =>
    match s.step w width with
    | .next _ s' => (lookupsWithin? w width steps s').map ((s.lookup? w).toList ++ ·)
    | _ => some (s.lookup? w).toList

/-- A run that is over within some steps looks up what those steps do. -/
theorem lookups_of_within {steps : Nat} {s : Stream} {ls : List Location}
    (h : lookupsWithin? w width steps s = some ls) : s.lookups w width = ls := by
  induction steps generalizing s ls with
  | zero => cases h
  | succ steps ih =>
    unfold lookupsWithin? at h
    split at h
    · next hstep =>
      obtain ⟨others, hothers, rfl⟩ := Option.map_eq_some_iff.mp h
      rw [lookups_of_next hstep, ih hothers]
    · next hstep =>
      rw [lookups]
      split
      · next hnext => exact absurd hnext (hstep _ _)
      · rw [List.append_nil]
        exact Option.some.inj h

/-- Induction along a run, whatever a step leads to. -/
theorem step_induction (w : Workspace) (width : UInt64) {P : Stream → Prop}
    (next : ∀ s, (∀ es s', s.step w width = .next es s' → P s') → P s) (s : Stream) : P s := by
  induction s using run_induction w width with
  | finished s h => exact next s fun _ _ hs => by cases h.symm.trans hs
  | failed s d h => exact next s fun _ _ hs => by cases h.symm.trans hs
  | next s es s' h ih => exact next s fun _ _ hs => by cases h.symm.trans hs; exact ih

/-! ### What stands first -/

/-- What can stand first in a file. -/
inductive Front : List Token → Prop where
  | nothing : Front []
  | ending {t : Token} {rest : List Token} (ht : t.kind = .endOfFile) : Front (t :: rest)
  | token {t : Token} {rest : List Token} (ht : isInner t.kind = false) : Front (t :: rest)
  | bare {t : Token} {rest : List Token} (ht : t.kind.isDirective = true)
      (hrest : ∀ name ∈ rest.head?, name.kind ≠ .keywordText) : Front (t :: rest)
  | included {t name : Token} {rest : List Token} (ht : t.kind = .includeFile)
      (hname : name.kind = .keywordText) : Front (t :: name :: rest)
  | embedded {t pattern : Token} {rest : List Token} (ht : t.kind = .embedFiles)
      (hpattern : pattern.kind = .keywordText) : Front (t :: pattern :: rest)

/-- Every list of tokens has one of the fronts that a step tells apart. -/
theorem front (ts : List Token) : Front ts := by
  cases ts with
  | nil => exact .nothing
  | cons t rest =>
    by_cases hend : t.kind = .endOfFile
    · exact .ending hend
    by_cases hdirective : t.kind.isDirective = true
    · cases rest with
      | nil => exact .bare hdirective (by simp)
      | cons name rest =>
        by_cases hname : name.kind = .keywordText
        · by_cases hinclude : t.kind = .includeFile
          · exact .included hinclude hname
          · exact .embedded (embedFiles_of_directive hdirective hinclude) hname
        · exact .bare hdirective (by simpa using hname)
    · exact .token (by simp [isInner, hdirective, hend])

/-- A step at an embedding opens what its pattern stands for. -/
theorem step_embedFiles {s : Sources} {t pattern ending : Token} {rest : List Token}
    {outer : List (List Token)} (ht : t.kind = .embedFiles)
    (hpattern : pattern.kind = .keywordText) :
    step w width { sources := s, opened := (t :: pattern :: rest) :: outer, ending } =
      embedFiles w { sources := s, opened := (t :: pattern :: rest) :: outer, ending } pattern rest
        outer := by
  simp only [step, ht, hpattern, if_true]

/-- An embedding fails, or it gives events and opens files, whatever stands behind it. -/
theorem embedFiles_cases (s : Sources) (pattern : Token) :
    (∃ d, ∀ opened ending rest outer,
        embedFiles w { sources := s, opened, ending } pattern rest outer = .failed d) ∨
      ∃ es files, ∀ opened ending rest outer,
        embedFiles w { sources := s, opened, ending } pattern rest outer =
          .next es { sources := s, opened := files ++ rest :: outer, ending } := by
  cases hexpand : s.expand w pattern.text with
  | error fault =>
    by_cases hfatal : fault.isFatal = true
    · refine .inl ⟨.ofToken fault.message pattern, fun _ _ _ _ => ?_⟩
      simp only [embedFiles, hexpand, hfatal, if_true]
    · refine .inr ⟨[.problem (.ofToken fault.message pattern)], [], fun _ _ _ _ => ?_⟩
      simp only [embedFiles, hexpand, hfatal]
      rfl
  | ok paths =>
    cases paths with
    | nil =>
      refine .inr ⟨[.problem (.ofToken
        s!"{pattern.text} does not match any files for 'Embed'" pattern)], [], fun _ _ _ _ => ?_⟩
      simp only [embedFiles, hexpand]
      rfl
    | cons path paths =>
      cases hfiles : (path :: paths).mapM (Sources.loadEmbedded w) with
      | error fault =>
        refine .inl ⟨.ofToken fault.message pattern, fun _ _ _ _ => ?_⟩
        simp only [embedFiles, hexpand, hfiles]
      | ok files =>
        refine .inr ⟨[], files.map fun f => Embedding.tokens f.name f.contents, fun _ _ _ _ => ?_⟩
        simp only [embedFiles, hexpand, hfiles]

/-- An include looks its name up. -/
theorem lookup?_included {s : Sources} {t name ending : Token} {rest : List Token}
    {outer : List (List Token)} (ht : t.kind = .includeFile) (hname : name.kind = .keywordText) :
    lookup? w { sources := s, opened := (t :: name :: rest) :: outer, ending } =
      s.lookup? w name.text := by
  simp [lookup?, ht, hname]

private theorem lookup?_bare {s : Sources} {t ending : Token} {rest : List Token}
    {outer : List (List Token)} (hrest : ∀ name ∈ rest.head?, name.kind ≠ .keywordText) :
    lookup? w { sources := s, opened := (t :: rest) :: outer, ending } = none := by
  cases rest with
  | nil => rfl
  | cons name rest => simp [lookup?, show name.kind ≠ .keywordText from hrest name rfl]

/-- Only an include looks anything up. -/
theorem lookup?_of_kind {s : Sources} {t ending : Token} {rest : List Token}
    {outer : List (List Token)} (ht : t.kind ≠ .includeFile) :
    lookup? w { sources := s, opened := (t :: rest) :: outer, ending } = none := by
  cases rest <;> simp [lookup?, ht]

/-- Whether tokens start with no name, so that they may follow any other ones. -/
def Nameless (ts : List Token) : Prop := ∀ t ∈ ts.head?, t.kind ≠ .keywordText

/-- No name stands first in the empty list. -/
theorem nameless_nil : Nameless [] := by simp [Nameless]

private theorem lookup?_append {s : Sources} {t ending : Token} {ts us : List Token}
    (outer : List (List Token)) (hus : Nameless us) :
    lookup? w { sources := s, opened := (t :: ts ++ us) :: outer, ending } =
      lookup? w { sources := s, opened := [t :: ts] } := by
  cases ts with
  | nil => exact lookup?_bare hus
  | cons name ts => rfl

/-- What a step does to the innermost file when a token of a line stands first: it fails, or it
gives events, opens files and goes on with what is left. It does so whatever stands behind. -/
theorem step_cons (w : Workspace) (width : UInt64) (s : Sources) {t : Token} (ts : List Token)
    (ht : t.kind ≠ .endOfFile) :
    (∃ d, ∀ us outer ending, Nameless us →
        step w width { sources := s, opened := (t :: ts ++ us) :: outer, ending } = .failed d) ∨
      ∃ es s' files rest, rest ⊆ ts ∧
        s' = s.adding (lookup? w { sources := s, opened := [t :: ts] }).toList ∧
        ∀ us outer ending, Nameless us →
          step w width { sources := s, opened := (t :: ts ++ us) :: outer, ending } =
            .next es { sources := s', opened := files ++ (rest ++ us) :: outer, ending } := by
  cases front (t :: ts) with
  | ending hend => exact absurd hend ht
  | token hinner =>
    refine .inr ⟨[.token t], s, [], ts, List.Subset.refl ts, ?_, fun _ _ _ _ => step_token hinner⟩
    rw [lookup?_of_kind (fun hk => by simp [hk, isInner, TokenKind.isDirective] at hinner)]
    exact s.adding_nil.symm
  | bare hdirective hts =>
    refine .inr ⟨[bareDirective t], s, [], ts, List.Subset.refl ts, ?_, fun us _ _ hus => ?_⟩
    · rw [lookup?_bare hts]
      exact s.adding_nil.symm
    · refine step_bare hdirective ?_
      cases ts with
      | nil => exact hus
      | cons name ts => exact hts
  | @included _ name rest hinclude hname =>
    rcases hload : s.load w name.text with ⟨s', fault | file⟩
    · exact .inl ⟨_, fun _ _ _ _ => step_include_error hinclude hname hload⟩
    · refine .inr ⟨[], s', [Outline.tokens width file.name file.contents], rest,
        List.subset_cons_self .., ?_, fun _ _ _ _ => step_include hinclude hname hload⟩
      obtain ⟨hlookup, hadded⟩ := Sources.load_cases hload
      rw [lookup?_included hinclude hname, hlookup]
      exact hadded
  | @embedded _ pattern rest hembed hpattern =>
    rcases embedFiles_cases (w := w) s pattern with ⟨d, hd⟩ | ⟨es, files, hnext⟩
    · refine .inl ⟨d, fun _ _ _ _ => ?_⟩
      rw [List.cons_append, List.cons_append, step_embedFiles hembed hpattern, hd]
    · refine .inr ⟨es, s, files, rest, List.subset_cons_self .., ?_, fun _ _ _ _ => ?_⟩
      · rw [lookup?_of_kind (by simp [hembed])]
        exact s.adding_nil.symm
      · rw [List.cons_append, List.cons_append, step_embedFiles hembed hpattern, hnext]

/-- A step looks at the innermost file: it puts files in its place and leaves the files around it as
they are. A location that it looks up is recorded. -/
theorem step_cases (w : Workspace) (width : UInt64) (s : Sources) (ts : List Token) :
    (∃ d, ∀ outer ending,
        step w width { sources := s, opened := ts :: outer, ending } = .failed d) ∨
      ∃ es s' files, ∃ last : Token → Token,
        s' = s.adding (lookup? w { sources := s, opened := [ts] }).toList ∧
        ∀ outer ending, step w width { sources := s, opened := ts :: outer, ending } =
          .next es { sources := s', opened := files ++ outer, ending := last ending } := by
  cases ts with
  | nil => exact .inr ⟨[], s, [], id, s.adding_nil.symm, fun _ _ => rfl⟩
  | cons t ts =>
    by_cases ht : t.kind = .endOfFile
    · refine .inr ⟨[], s, [], fun _ => t, ?_, fun _ _ => step_ending ht⟩
      rw [lookup?_of_kind (by simp [ht])]
      exact s.adding_nil.symm
    · rcases step_cons w width s ts ht with
        ⟨d, hfail⟩ | ⟨es, s', files, rest, -, hadded, hnext⟩
      · refine .inl ⟨d, fun outer ending => ?_⟩
        simpa using hfail [] outer ending nameless_nil
      · refine .inr ⟨es, s', files ++ [rest], id, hadded, fun outer ending => ?_⟩
        simpa using hnext [] outer ending nameless_nil

/-- The lookup of a step is one in the innermost file. -/
theorem lookup?_outer (s : Sources) (ts : List Token) (outer : List (List Token)) (ending : Token) :
    lookup? w { sources := s, opened := ts :: outer, ending } =
      lookup? w { sources := s, opened := [ts] } := by
  rcases ts with _ | ⟨t, _ | ⟨name, ts⟩⟩ <;> rfl

/-- The record of a stream with everything that its run looks up. -/
def record (w : Workspace) (width : UInt64) (s : Stream) : Sources :=
  s.sources.adding (s.lookups w width)

/-- A location that is looked up passes into the sources, and no other does. -/
theorem record_of_next {s s' : Stream} {es : List Event} (h : s.step w width = .next es s') :
    s'.record w width = s.record w width := by
  obtain ⟨sources, opened, ending⟩ := s
  cases opened with
  | nil => cases h
  | cons ts outer =>
    rcases step_cases w width sources ts with ⟨d, hfail⟩ | ⟨es, r, files, last, hadded, hnext⟩
    · rw [hfail] at h
      cases h
    · have hstep := hnext outer ending
      rw [hstep] at h
      cases h
      rw [record, record, lookups_of_next hstep, lookup?_outer, hadded, Sources.adding_adding]

/-! ### Cutting a file -/

/-- Two streams of which the second has a file of the first cut in two. -/
inductive Cut (us : List Token) (outer : List (List Token)) : Stream → Stream → Prop where
  | mk (s : Sources) (inner : List (List Token)) (ts : List Token) (ending : Token)
      (hts : ∀ t ∈ ts, t.kind ≠ .endOfFile) :
    Cut us outer { sources := s, opened := inner ++ (ts ++ us) :: outer, ending }
      { sources := s, opened := inner ++ ts :: us :: outer, ending }

/-- A step reaches the cut, or both streams take the same step and stay cut. -/
theorem Cut.step (w : Workspace) (width : UInt64) {us : List Token} {outer : List (List Token)}
    {x y : Stream} (h : Cut us outer x y) (hus : Nameless us) :
    (y.step w width = .next [] x ∧ y.lookup? w = none) ∨
      x.lookup? w = y.lookup? w ∧
        ((∃ d, x.step w width = .failed d ∧ y.step w width = .failed d) ∨
          ∃ es x' y', x.step w width = .next es x' ∧ y.step w width = .next es y' ∧
            Cut us outer x' y') := by
  obtain ⟨s, inner, ts, ending, hts⟩ := h
  cases inner with
  | nil =>
    cases ts with
    | nil => exact .inl ⟨rfl, rfl⟩
    | cons t ts =>
      refine .inr ⟨(lookup?_append outer hus).trans (lookup?_outer s (t :: ts) _ ending).symm, ?_⟩
      rcases step_cons w width s ts (hts t (by simp)) with
        ⟨d, hfail⟩ | ⟨es, s', files, rest, hrest, -, hnext⟩
      · refine .inl ⟨d, hfail us outer ending hus, ?_⟩
        simpa using hfail [] (us :: outer) ending nameless_nil
      · refine .inr ⟨es, _, _, hnext us outer ending hus, ?_, .mk s' files rest ending
          fun u hu => hts u (List.mem_cons_of_mem t (hrest hu))⟩
        simpa using hnext [] (us :: outer) ending nameless_nil
  | cons p inner =>
    refine .inr ⟨(lookup?_outer s p _ ending).trans (lookup?_outer s p _ ending).symm, ?_⟩
    rcases step_cases w width s p with
      ⟨d, hfail⟩ | ⟨es, s', files, last, -, hnext⟩
    · exact .inl ⟨d, hfail _ ending, hfail _ ending⟩
    · have hcut : Cut us outer _ _ := .mk s' (files ++ inner) ts (last ending) hts
      rw [List.append_assoc, List.append_assoc] at hcut
      exact .inr ⟨es, _, _, hnext _ ending, hnext _ ending, hcut⟩

/-- A file may be cut in two where no name follows: the events, the outcome and the lookups of the
run stay the same. -/
theorem Cut.run {us : List Token} {outer : List (List Token)} {x y : Stream}
    (h : Cut us outer x y) (hus : Nameless us) :
    x.run w width = y.run w width ∧ x.lookups w width = y.lookups w width := by
  induction y using step_induction w width generalizing x with
  | next y ih =>
    rcases h.step w width hus with
      ⟨hy, hnone⟩ | ⟨hlookup, ⟨d, hx, hy⟩ | ⟨es, x', y', hx, hy, hcut⟩⟩
    · rw [run_of_next hy, lookups_of_next hy, hnone]
      exact ⟨rfl, rfl⟩
    · rw [run_of_failed hx, run_of_failed hy, lookups_of_failed hx, lookups_of_failed hy, hlookup]
      exact ⟨rfl, rfl⟩
    · obtain ⟨hrun, hlookups⟩ := ih es y' hy hcut
      rw [run_of_next hx, run_of_next hy, lookups_of_next hx, lookups_of_next hy, hlookup, hrun,
        hlookups]
      exact ⟨rfl, rfl⟩

/-- A run through tokens with others behind them is a run through these tokens, followed by one
through the others. -/
theorem run_cut (w : Workspace) (width : UInt64) (s : Sources) {ts us : List Token}
    (hts : ∀ t ∈ ts, t.kind ≠ .endOfFile) (hus : Nameless us) (outer : List (List Token))
    (ending : Token) :
    run w width { sources := s, opened := (ts ++ us) :: outer, ending } =
        run w width { sources := s, opened := ts :: us :: outer, ending } ∧
      lookups w width { sources := s, opened := (ts ++ us) :: outer, ending } =
        lookups w width { sources := s, opened := ts :: us :: outer, ending } :=
  (Cut.mk s [] ts ending hts : Cut us outer _ _).run hus

end Stream

end PromptOutline
