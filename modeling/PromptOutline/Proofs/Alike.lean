import PromptOutline.Proofs.Lookups
import PromptOutline.Proofs.Places

/-!
# Streams that run alike

A step looks at the record of used files only where an include is looked up. So two streams whose
open files differ in places, and whose records differ in locations that the run looks nothing up at,
give events that differ in places. With that an include can be replaced by the content of the file
it names: the record then lacks one location, and nothing else is looked up there.
-/

namespace PromptOutline

/-! ### Records that agree -/

/-- Records of used files that agree on the locations of interest. -/
structure Sources.Agrees (P : Location → Prop) (s s' : Sources) : Prop where
  searchPaths : s.searchPaths = s'.searchPaths
  used : ∀ l, P l → (l ∈ s.used ↔ l ∈ s'.used)

namespace Sources

variable {w : Workspace} {P : Location → Prop} {s s' : Sources}

/-- Sources agree with themselves. -/
theorem Agrees.refl (s : Sources) : Agrees P s s := ⟨rfl, fun _ _ => Iff.rfl⟩

private theorem Agrees.resolve (h : Agrees P s s') (name : String) :
    s.resolve w name = s'.resolve w name := by
  simp only [Sources.resolve, candidates, h.searchPaths]

/-- A pattern stands for the same files in sources that agree. -/
theorem Agrees.expand (h : Agrees P s s') (pattern : String) :
    s.expand w pattern = s'.expand w pattern := by
  simp only [Sources.expand, patterns, h.searchPaths]

private theorem Agrees.readOnce (h : Agrees P s s') {name path : String} {l : Location} (hl : P l) :
    (s.readOnce w name path l).2 = (s'.readOnce w name path l).2 ∧
      Agrees P (s.readOnce w name path l).1 (s'.readOnce w name path l).1 := by
  have hcontains : s.used.contains l = s'.used.contains l := by
    simp only [List.contains_eq_mem, h.used l hl]
  simp only [Sources.readOnce, hcontains]
  split
  · exact ⟨rfl, h⟩
  · refine ⟨rfl, h.searchPaths, fun k hk => ?_⟩
    simp only [List.mem_append, h.used k hk]

/-- A file is loaded the same from records that agree on where it is looked up. -/
theorem Agrees.load (h : Agrees P s s') {name : String} (hl : ∀ l ∈ s.lookup? w name, P l)
    {r : Sources} {x : Except LoadFault SourceFile} (hload : s.load w name = (r, x)) :
    ∃ r', s'.load w name = (r', x) ∧ Agrees P r r' := by
  simp only [lookup?, h.resolve name] at hl
  simp only [Sources.load, h.resolve name] at hload ⊢
  split at hload
  · cases hload
    exact ⟨s', rfl, h⟩
  · next path hpath =>
    simp only [hpath] at hl
    split at hload
    · next hdirectory =>
      cases hload
      exact ⟨s', by rw [if_pos hdirectory], h⟩
    · next hdirectory =>
      rw [if_neg hdirectory] at hl ⊢
      split at hload
      · cases hload
        exact ⟨s', rfl, h⟩
      · next l hlocate =>
        rw [hlocate] at hl
        obtain ⟨hfile, hagrees⟩ := h.readOnce (w := w) (hl l rfl)
        rw [hload] at hfile hagrees
        exact ⟨_, Prod.ext rfl hfile.symm, hagrees⟩

end Sources

namespace Stream

variable {w : Workspace} {width : UInt64}

/-! ### Streams that differ in places -/

/-- Streams whose open files differ in places and whose records agree on the locations of
interest. -/
structure Alike (P : Location → Prop) (s s' : Stream) : Prop where
  sources : s.sources.Agrees P s'.sources
  opened : s.opened.map (List.map Token.bare) = s'.opened.map (List.map Token.bare)

/-- Steps with the same events, up to places, to streams that are alike. -/
inductive Step.Alike (P : Location → Prop) : Step → Step → Prop where
  | finished : Step.Alike P .finished .finished
  | failed {d e : Diagnostic} (h : d.bare = e.bare) : Step.Alike P (.failed d) (.failed e)
  | next {es fs : List Event} {s s' : Stream} (hes : es.map Event.bare = fs.map Event.bare)
      (hs : s.Alike P s') : Step.Alike P (.next es s) (.next fs s')

private theorem Nameless.of_bare {ts us : List Token} (h : ts.map Token.bare = us.map Token.bare)
    (hts : Nameless ts) : Nameless us := by
  intro u hu
  have hhead := congrArg List.head? h
  rw [List.head?_map, List.head?_map, hu] at hhead
  obtain ⟨t, ht, htu⟩ := Option.map_eq_some_iff.mp hhead
  rw [← Token.kind_of_bare htu]
  exact hts t ht

private theorem embedFiles_alike {P : Location → Prop} {s s' : Stream} {pattern pattern' : Token}
    {rest rest' : List Token} {outer outer' : List (List Token)}
    (hsources : s.sources.Agrees P s'.sources) (hpattern : pattern.bare = pattern'.bare)
    (hopened : (rest :: outer).map (List.map Token.bare) =
      (rest' :: outer').map (List.map Token.bare)) :
    (embedFiles w s pattern rest outer).Alike P (embedFiles w s' pattern' rest' outer') := by
  have htext : pattern.text = pattern'.text := Token.text_of_bare hpattern
  have hplace (message : String) : (Diagnostic.ofToken message pattern).bare =
      (Diagnostic.ofToken message pattern').bare := Diagnostic.bare_ofToken message pattern pattern'
  simp only [embedFiles, htext, hsources.expand]
  split
  · split
    · exact .failed (hplace _)
    · exact .next (by simp [Event.bare, hplace]) ⟨hsources, hopened⟩
  · exact .next (by simp [Event.bare, hplace]) ⟨hsources, hopened⟩
  · split
    · exact .failed (hplace _)
    · refine .next rfl ⟨hsources, ?_⟩
      rw [List.map_append, List.map_append, hopened]

/-- Streams that are alike take steps that are alike. -/
theorem Alike.step (w : Workspace) (width : UInt64) {P : Location → Prop} {s s' : Stream}
    (h : s.Alike P s') (hP : ∀ l ∈ s.lookup? w, P l) :
    (s.step w width).Alike P (s'.step w width) := by
  obtain ⟨sources, opened, ending⟩ := s
  obtain ⟨sources', opened', ending'⟩ := s'
  obtain ⟨hsources, hopened⟩ := h
  simp only at hsources hopened
  cases opened with
  | nil =>
    obtain rfl : opened' = [] := by simpa using hopened
    exact .finished
  | cons ts outer =>
    obtain ⟨ts', outer', rfl, hts, houter⟩ := List.map_eq_cons_iff.mp hopened.symm
    have hwith {rest rest' : List Token} (h : rest'.map Token.bare = rest.map Token.bare) :
        (rest :: outer).map (List.map Token.bare) =
        (rest' :: outer').map (List.map Token.bare) := by
      rw [List.map_cons, List.map_cons, h, houter]
    cases front ts with
    | nothing =>
      obtain rfl : ts' = [] := by simpa using hts
      exact .next rfl ⟨hsources, houter.symm⟩
    | @ending t rest ht =>
      obtain ⟨t', rest', rfl, htt, -⟩ := List.map_eq_cons_iff.mp hts
      rw [step_ending ht, step_ending ((Token.kind_of_bare htt).trans ht)]
      exact .next rfl ⟨hsources, houter.symm⟩
    | @token t rest ht =>
      obtain ⟨t', rest', rfl, htt, hrest⟩ := List.map_eq_cons_iff.mp hts
      rw [step_token ht, step_token (by rw [Token.kind_of_bare htt, ht])]
      exact .next (by simp [Event.bare, htt]) ⟨hsources, hwith hrest⟩
    | @bare t rest ht hbare =>
      obtain ⟨t', rest', rfl, htt, hrest⟩ := List.map_eq_cons_iff.mp hts
      have hevent : (bareDirective t).bare = (bareDirective t').bare := by
        rw [bareDirective, bareDirective, Token.kind_of_bare htt]
        exact congrArg Event.problem (Diagnostic.bare_ofToken _ t t')
      rw [step_bare ht hbare, step_bare (by rw [Token.kind_of_bare htt, ht])
        (Nameless.of_bare hrest.symm hbare)]
      exact .next (by simp [hevent]) ⟨hsources, hwith hrest⟩
    | @included t name rest ht hname =>
      obtain ⟨t', _, rfl, htt, hrest⟩ := List.map_eq_cons_iff.mp hts
      obtain ⟨name', rest', rfl, hnn, hrest⟩ := List.map_eq_cons_iff.mp hrest
      have ht' : t'.kind = .includeFile := (Token.kind_of_bare htt).trans ht
      have hname' : name'.kind = .keywordText := (Token.kind_of_bare hnn).trans hname
      rw [lookup?_included ht hname] at hP
      rcases hload : sources.load w name.text with ⟨r, fault | file⟩ <;>
        obtain ⟨r', hload', hagrees⟩ := hsources.load hP hload <;>
        rw [← Token.text_of_bare hnn] at hload'
      · rw [step_include_error ht hname hload, step_include_error ht' hname' hload']
        exact .failed (Diagnostic.bare_ofToken _ name name')
      · rw [step_include ht hname hload, step_include ht' hname' hload']
        exact .next rfl ⟨hagrees, congrArg (_ :: ·) (hwith hrest)⟩
    | @embedded t pattern rest ht hpattern =>
      obtain ⟨t', _, rfl, htt, hrest⟩ := List.map_eq_cons_iff.mp hts
      obtain ⟨pattern', rest', rfl, hpp, hrest⟩ := List.map_eq_cons_iff.mp hrest
      rw [step_embedFiles ht hpattern, step_embedFiles ((Token.kind_of_bare htt).trans ht)
        ((Token.kind_of_bare hpp).trans hpattern)]
      exact embedFiles_alike hsources hpp.symm (hwith hrest)

/-! ### Runs -/

/-- A stream with more files around the open ones. -/
def above (s : Stream) (outer : List (List Token)) : Stream :=
  { s with opened := s.opened ++ outer }

/-- Outcomes that are the same up to places: both streams end, or both fail with one problem. -/
def Outcome.Same : Outcome → Outcome → Prop
  | .finished _, .finished _ => True
  | .failed d, .failed e => d.bare = e.bare
  | _, _ => False

/-- Runs that give the same events and have the same outcome, up to places. -/
def SameRun (r r' : List Event × Outcome) : Prop :=
  r.1.map Event.bare = r'.1.map Event.bare ∧ r.2.Same r'.2

/-- What a step leads to with more files around. -/
def Step.above : Step → List (List Token) → Step
  | .next es s, outer => .next es (s.above outer)
  | step, _ => step

/-- A stream takes the same steps with more files around, as long as it has files of its own. -/
theorem step_above (w : Workspace) (width : UInt64) {s : Stream} (hs : s.opened ≠ [])
    (outer : List (List Token)) :
    (s.above outer).step w width = (s.step w width).above outer := by
  obtain ⟨sources, opened, ending⟩ := s
  cases opened with
  | nil => exact absurd rfl hs
  | cons ts inner =>
    rcases step_cases w width sources ts with ⟨d, hfail⟩ | ⟨es, s', files, last, -, hnext⟩
    · rw [hfail inner ending]
      exact hfail (inner ++ outer) ending
    · rw [hnext inner ending]
      refine (hnext (inner ++ outer) ending).trans ?_
      simp only [Step.above, above, List.append_assoc]

private theorem lookup?_above {s : Stream} (hs : s.opened ≠ []) (outer : List (List Token)) :
    (s.above outer).lookup? w = s.lookup? w := by
  obtain ⟨sources, opened, ending⟩ := s
  cases opened with
  | nil => exact absurd rfl hs
  | cons ts inner => exact (lookup?_outer sources ts _ ending).trans (lookup?_outer ..).symm

/-- Streams that are alike run alike up to the files around them, and from there on if these do. The
first stream has the same record there as at the start. -/
theorem Alike.sameRun_above {P : Location → Prop} {outer outer' : List (List Token)} {s s' : Stream}
    (h : s.Alike P s') (hP : ∀ l ∈ (s.above outer).lookups w width, P l)
    (hthen : ∀ (r r' : Sources) (ending ending' : Token), r.Agrees P r' →
      (∀ l ∈ lookups w width { sources := r, opened := outer, ending }, P l) →
      record w width { sources := r, opened := outer, ending } = (s.above outer).record w width →
      SameRun (run w width { sources := r, opened := outer, ending })
        (run w width { sources := r', opened := outer', ending := ending' })) :
    SameRun ((s.above outer).run w width) ((s'.above outer').run w width) := by
  -- Along the run of the first stream; a step keeps both likeness and record.
  induction hx : s.above outer using step_induction w width generalizing s s' with
  | next x ih =>
    subst hx
    by_cases hs : s.opened = []
    · have hs' : s'.opened = [] := by simpa [hs] using h.opened.symm
      have hnext := hthen s.sources s'.sources s.ending s'.ending h.sources
      simp only [above, hs, hs', List.nil_append] at hP hnext ⊢
      exact hnext hP trivial
    · have hs' : s'.opened ≠ [] := fun hs' => hs (by simpa [hs'] using h.opened)
      have hlookup : ∀ l ∈ s.lookup? w, P l := by
        intro l hl
        rw [← lookup?_above hs outer] at hl
        apply hP
        rw [lookups]
        exact List.mem_append_left _ (Option.mem_toList.mpr hl)
      have hstep := h.step w width hlookup
      have habove := step_above w width hs outer
      have habove' := step_above w width hs' outer'
      generalize s.step w width = x at hstep habove
      generalize s'.step w width = x' at hstep habove'
      cases hstep with
      | finished =>
        rw [run_of_finished habove, run_of_finished habove']
        exact ⟨rfl, trivial⟩
      | failed hd =>
        rw [run_of_failed habove, run_of_failed habove']
        exact ⟨rfl, hd⟩
      | @next es es' t t' hes ht =>
        have hrecord : (t.above outer).record w width = (s.above outer).record w width :=
          record_of_next habove
        have hrest : SameRun ((t.above outer).run w width) ((t'.above outer').run w width) := by
          refine ih es _ habove ht (fun l hl => hP l ?_) ?_ rfl
          · rw [lookups_of_next habove]
            exact List.mem_append_right _ hl
          · rw [hrecord]
            exact hthen
        rw [run_of_next habove, run_of_next habove']
        exact ⟨by simp only [List.map_append, hes, hrest.1], hrest.2⟩

private theorem Alike.sameRun {P : Location → Prop} {s s' : Stream} (h : s.Alike P s')
    (hP : ∀ l ∈ s.lookups w width, P l) : SameRun (s.run w width) (s'.run w width) := by
  have hnone (s : Stream) : s.above [] = s := by simp [above]
  rw [← hnone s] at hP ⊢
  rw [← hnone s']
  refine h.sameRun_above hP fun r r' ending ending' _ _ _ => ?_
  have hover (r : Sources) (ending : Token) :
      run w width { sources := r, opened := [], ending } = ([], .finished ending) :=
    run_of_finished rfl
  rw [hover, hover]
  exact ⟨rfl, trivial⟩

/-! ### Including in place -/

private theorem kind_of_bare_eq {ts us : List Token} (h : ts.map Token.bare = us.map Token.bare)
    {k : TokenKind} (hts : ∀ t ∈ ts, t.kind ≠ k) : ∀ u ∈ us, u.kind ≠ k := by
  intro u hu
  have hmem : u.bare ∈ ts.map Token.bare := h ▸ List.mem_map_of_mem hu
  obtain ⟨t, ht, htu⟩ := List.mem_map.mp hmem
  rw [← Token.kind_of_bare htu]
  exact hts t ht

private theorem nameless_content (width : UInt64) (fileName source : String) :
    Nameless (Outline.content width fileName source) :=
  (Outline.guarded_content width fileName source).head

/-- Two lists with no name in front make one with no name in front. -/
theorem Nameless.append {ts us : List Token} (hts : Nameless ts) (hus : Nameless us) :
    Nameless (ts ++ us) := by
  cases ts with
  | nil => exact hus
  | cons t ts => exact hts

/-- A file opened before the rest of another one runs like a file that holds both. -/
theorem sameRun_opened {P : Location → Prop} {r r' : Sources} {fileName source : String}
    {inside after after' : List Token} {ending ending' : Token} (hagrees : r.Agrees P r')
    (hP : ∀ l ∈ lookups w width
      { sources := r, opened := [Outline.tokens width fileName source, after], ending }, P l)
    (hafter : Nameless after)
    (hinside : (Outline.content width fileName source).map Token.bare = inside.map Token.bare)
    (hbehind : after.map Token.bare = after'.map Token.bare) :
    SameRun
      (run w width
        { sources := r, opened := [Outline.tokens width fileName source, after], ending })
      (run w width { sources := r', opened := [inside ++ after'], ending := ending' }) := by
  let e := Token.endOfFile fileName ((Text.lines source.toList).length + 1)
  have hends : ∀ t ∈ Outline.content width fileName source, t.kind ≠ .endOfFile :=
    Outline.kind_of_mem_content
  obtain ⟨hrun, hlookups⟩ := run_cut w width r hends
    (show Nameless [e] by simp [Nameless, e, Token.endOfFile]) [after] ending
  obtain ⟨hrun', -⟩ := run_cut w width r' (kind_of_bare_eq hinside hends)
    (hafter.of_bare hbehind) [] ending'
  rw [Outline.tokens_eq_content, hlookups] at hP
  rw [Outline.tokens_eq_content, hrun, hrun']
  -- First the content of the file, then its end mark in one run only, then what stands behind.
  have hcontent : Alike P
    { sources := r, opened := [Outline.content width fileName source], ending }
      { sources := r', opened := [inside], ending := ending' } := ⟨hagrees, by simp [hinside]⟩
  refine hcontent.sameRun_above hP fun q q' last last' hq hlast _ => ?_
  have hmark : step w width { sources := q, opened := [[e], after], ending := last } =
      .next [] { sources := q, opened := [after], ending := e } := step_ending rfl
  have hrest : Alike P { sources := q, opened := [after], ending := e }
      { sources := q', opened := [after'], ending := last' } := ⟨hq, by simp [hbehind]⟩
  rw [lookups_of_next hmark] at hlast
  rw [run_of_next hmark]
  exact hrest.sameRun fun l hl => hlast l (List.mem_append_right _ hl)

/-- An include that stands first may be replaced by the content of the file it names, if the run
looks the file up there only. -/
theorem sameRun_first {r r' left : Sources} {t name ending ending' : Token} {file : SourceFile}
    {inside after after' : List Token} (hagrees : r.Agrees (fun _ => True) r')
    (ht : t.kind = .includeFile) (hname : name.kind = .keywordText)
    (hload : r.load w name.text = (left, .ok file))
    (honce : (lookups w width
      { sources := r, opened := [t :: name :: after], ending }).count file.location ≤ 1)
    (hafter : Nameless after)
    (hinside : (Outline.content width file.name file.contents).map Token.bare =
      inside.map Token.bare)
    (hbehind : after.map Token.bare = after'.map Token.bare) :
    SameRun (run w width { sources := r, opened := [t :: name :: after], ending })
      (run w width { sources := r', opened := [inside ++ after'], ending := ending' }) := by
  obtain ⟨hlookup, rfl⟩ := Sources.load_cases hload
  have hstep : step w width { sources := r, opened := [t :: name :: after], ending } =
      .next [] { sources := r.adding [file.location],
                 opened := [Outline.tokens width file.name file.contents, after], ending } :=
    step_include ht hname hload
  rw [lookups_of_next hstep, lookup?_included ht hname, hlookup] at honce
  rw [run_of_next hstep]
  refine sameRun_opened (P := (· ≠ file.location)) ⟨hagrees.searchPaths, ?_⟩ ?_ hafter hinside
    hbehind
  · intro l hl
    simp [Sources.adding, hl, hagrees.used l trivial]
  · rintro l hl rfl
    have hpos := List.count_pos_iff.mpr hl
    simp only [Option.toList_some, List.cons_append, List.nil_append, List.count_cons_self] at honce
    omega

/-- An include is looked up at a location that counts once among what is recorded before it and
looked up from it on. So the location is not recorded yet. -/
theorem notMem_used_of_once {r : Sources} {t name ending : Token} {after : List Token}
    {l : Location}
    (ht : t.kind = .includeFile) (hname : name.kind = .keywordText)
    (hlookup : r.lookup? w name.text = some l)
    (honce : (record w width
      { sources := r, opened := [t :: name :: after], ending }).used.count l ≤ 1) :
    l ∉ r.used := by
  intro hmem
  have hpos := List.count_pos_iff.mpr hmem
  rw [record, Sources.adding, List.count_append, lookups, lookup?_included ht hname,
    hlookup] at honce
  simp only [Option.toList_some, List.cons_append, List.nil_append, List.count_cons_self] at honce
  omega

/-- Two lists of tokens, of which the second has the content of a file in the place of an include
in the first. -/
inductive Replaced (width : UInt64) (name : String) (file : SourceFile) :
    List Token → List Token → Prop where
  | mk {before before' inside after after' : List Token} {t named : Token}
      (ht : t.kind = .includeFile) (hnamed : named.kind = .keywordText) (hname : named.text = name)
      (hends : ∀ u ∈ before, u.kind ≠ .endOfFile) (hafter : Nameless after)
      (hbefore : before.map Token.bare = before'.map Token.bare)
      (hinside : (Outline.content width file.name file.contents).map Token.bare =
        inside.map Token.bare)
      (hbehind : after.map Token.bare = after'.map Token.bare) :
    Replaced width name file (before ++ t :: named :: after) (before' ++ (inside ++ after'))

/-- An include may be replaced by the content of the file it names, if the run looks the file up
there only: the run stays the same up to places. -/
theorem Replaced.sameRun {s left : Sources} {name : String} {file : SourceFile}
    {ts us : List Token} (h : Replaced width name file ts us)
    (hload : s.load w name = (left, .ok file))
    (honce : (lookups w width { sources := s, opened := [ts] }).count file.location ≤ 1) :
    SameRun (run w width { sources := s, opened := [ts] })
      (run w width { sources := s, opened := [us] }) := by
  obtain @⟨before, before', inside, after, after', t, named, ht, hnamed, rfl, hends, hafter,
    hbefore, hinside, hbehind⟩ := h
  have hinclude : Nameless (t :: named :: after) := by simp [Nameless, ht]
  have hreplaced : Nameless (inside ++ after') :=
    ((nameless_content width file.name file.contents).of_bare hinside).append
      (hafter.of_bare hbehind)
  obtain ⟨hrun, hlookups⟩ := run_cut w width s hends hinclude [] (Token.endOfFile "" 0)
  obtain ⟨hrun', -⟩ := run_cut w width s (kind_of_bare_eq hbefore hends) hreplaced []
    (Token.endOfFile "" 0)
  rw [hlookups] at honce
  rw [hrun, hrun']
  have halike : Alike (fun _ => True) { sources := s, opened := [before] }
      { sources := s, opened := [before'] } := ⟨.refl s, by simp [hbefore]⟩
  refine halike.sameRun_above (fun _ _ => trivial) fun r r' ending ending' hagrees _ hrecord => ?_
  have hpaths : s.searchPaths = r.searchPaths := (congrArg Sources.searchPaths hrecord).symm
  obtain ⟨hlookup, -⟩ := Sources.load_cases hload
  obtain ⟨-, hnew, -⟩ := Sources.load_eq_ok hload
  have hcount : (record w width
      { sources := r, opened := [t :: named :: after], ending }).used.count file.location ≤ 1 := by
    rw [hrecord, record, Sources.adding, List.count_append]
    have hzero := List.count_eq_zero_of_not_mem hnew
    simp only [above, hzero, Nat.zero_add]
    exact honce
  have hunused : file.location ∉ r.used :=
    notMem_used_of_once ht hnamed (Sources.lookup?_congr hpaths ▸ hlookup) hcount
  have hsame : s.Agrees (· = file.location) r :=
    ⟨hpaths, by rintro l rfl; exact iff_of_false hnew hunused⟩
  obtain ⟨opened, hopened, -⟩ := hsame.load (by rw [hlookup]; rintro l ⟨⟩; rfl) hload
  rw [record, Sources.adding, List.count_append] at hcount
  exact sameRun_first hagrees ht hnamed hopened (by omega) hafter hinside hbehind

end Stream

end PromptOutline
