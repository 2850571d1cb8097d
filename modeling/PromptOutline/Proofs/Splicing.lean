import PromptOutline.Proofs.Delivery
import PromptOutline.Proofs.LineTokens

/-!
# Directives as splicing

A directive stands for the tokens of the files it names. `expand` says so by recursion on tokens:
an include is replaced by the expansion of the file's tokens, and the record of used files that it
leaves is passed on; an embedding is replaced by the tokens of the matched files. The stream works
on a stack of open files instead, and gives exactly the expansion of the first one.
-/

namespace PromptOutline

/-- The number of files that no outline was read from. -/
def Sources.unread (w : Workspace) (s : Sources) : Nat :=
  w.tree.files.countP (!s.used.contains ·)

private theorem Sources.unread_lt_of_load {w : Workspace} {s s' : Sources} {name : String}
    {f : SourceFile} (h : s.load w name = (s', .ok f)) : s'.unread w < s.unread w :=
  @Stream.unused_load w { sources := s, opened := [] } s' name f h []

/-- What tokens expand to: events, and either a failure or the record of used files, which leaves no
more files unread. -/
structure Expansion (w : Workspace) (s : Sources) where
  events : List Event
  outcome : Except Diagnostic { s' : Sources // s'.unread w ≤ s.unread w }

/-- The tokens among events. -/
def Event.tokens (es : List Event) : List Token :=
  es.filterMap fun
    | .token t => some t
    | .problem _ => none

/-- The tokens of two lists of events are those of both. -/
theorem Event.tokens_append (es fs : List Event) :
    Event.tokens (es ++ fs) = Event.tokens es ++ Event.tokens fs :=
  List.filterMap_append

/-- A token is among those of some events if it is the token of one of them. -/
theorem Event.mem_tokens {es : List Event} {t : Token} : t ∈ Event.tokens es ↔ .token t ∈ es := by
  rw [Event.tokens, List.mem_filterMap]
  constructor
  · rintro ⟨e, he, ht⟩
    cases e with
    | token u => cases ht; exact he
    | problem d => cases ht
  · intro h
    exact ⟨.token t, h, rfl⟩

/-- The tokens of events that are all tokens are these tokens. -/
theorem Event.tokens_map (ts : List Token) : Event.tokens (ts.map .token) = ts := by
  simp [Event.tokens, List.filterMap_map]

/-- The tokens of a file without the mark for its end. -/
def contentTokens (ts : List Token) : List Token := ts.filter (·.kind != .endOfFile)

namespace Expansion

variable {w : Workspace} {s s' : Sources}

/-- An expansion that gives other events first. -/
def behind (es : List Event) (x : Expansion w s) : Expansion w s :=
  { x with events := es ++ x.events }

/-- An expansion with a later record of files, seen from an earlier one. -/
def since (h : s'.unread w ≤ s.unread w) (x : Expansion w s') : Expansion w s where
  events := x.events
  outcome := x.outcome.map fun r => ⟨r.1, Nat.le_trans r.2 h⟩

/-- The tokens of an expansion. -/
def tokens (x : Expansion w s) : List Token := Event.tokens x.events

private theorem tokens_behind (es : List Event) (x : Expansion w s) :
    (x.behind es).tokens = Event.tokens es ++ x.tokens :=
  Event.tokens_append es x.events

private theorem tokens_since (h : s'.unread w ≤ s.unread w) (x : Expansion w s') :
    (x.since h).tokens = x.tokens := rfl

/-- The run of a stream that gives an expansion and then goes on with the record of files that the
expansion leaves. -/
def followedBy (x : Expansion w s) (next : Sources → List Event × Stream.Outcome) :
    List Event × Stream.Outcome :=
  match x.outcome with
  | .error d => (x.events, .failed d)
  | .ok r => (x.events ++ (next r.1).1, (next r.1).2)

/-- The outcome of a stream that gives an expansion and ends with a mark. -/
def ended (x : Expansion w s) (ending : Token) : Stream.Outcome :=
  match x.outcome with
  | .error d => .failed d
  | .ok _ => .finished ending

private theorem followedBy_finished (x : Expansion w s) (ending : Token) :
    (x.followedBy fun _ => ([], .finished ending)) = (x.events, x.ended ending) := by
  rcases x with ⟨events, d | r⟩ <;> simp [followedBy, ended]

private theorem followedBy_of_error {x : Expansion w s} {d : Diagnostic} (h : x.outcome = .error d)
    (next : Sources → List Event × Stream.Outcome) :
    x.followedBy next = (x.events, .failed d) := by
  rw [followedBy, h]

private theorem followedBy_of_ok {x : Expansion w s}
    {r : { s' : Sources // s'.unread w ≤ s.unread w }}
    (h : x.outcome = .ok r) (next : Sources → List Event × Stream.Outcome) :
    x.followedBy next = (x.events ++ (next r.1).1, (next r.1).2) := by
  rw [followedBy, h]

private theorem followedBy_behind (es : List Event) (x : Expansion w s)
    (next : Sources → List Event × Stream.Outcome) :
    (x.behind es).followedBy next = (es ++ (x.followedBy next).1, (x.followedBy next).2) := by
  rcases x with ⟨events, d | r⟩ <;> simp [followedBy, behind]

private theorem followedBy_since (h : s'.unread w ≤ s.unread w) (x : Expansion w s')
    (next : Sources → List Event × Stream.Outcome) :
    (x.since h).followedBy next = x.followedBy next := by
  rcases x with ⟨events, d | r⟩ <;> rfl

end Expansion

/-- What an embedding is replaced by: the tokens of the matched files in the order of the matches,
or a problem if there are none or the pattern is bad. -/
def embeddedEvents (w : Workspace) (s : Sources) (pattern : Token) :
    Except Diagnostic (List Event) :=
  match s.expand w pattern.text with
  | .error fault =>
    if fault.isFatal then .error (.ofToken fault.message pattern)
    else .ok [.problem (.ofToken fault.message pattern)]
  | .ok [] =>
    .ok [.problem (.ofToken s!"{pattern.text} does not match any files for 'Embed'" pattern)]
  | .ok (path :: paths) =>
    match (path :: paths).mapM (Sources.loadEmbedded w) with
    | .error fault => .error (.ofToken fault.message pattern)
    | .ok files =>
      .ok ((files.flatMap fun f => contentTokens (Embedding.tokens f.name f.contents)).map .token)

/-- The problem of a directive that names no file. -/
def bareDirective (t : Token) : Event :=
  .problem (.ofToken (if t.kind = .includeFile then "Expected file name for 'Include'"
    else "Expected file name or wildcard match for 'Embed'") t)

/-- Tokens with every directive replaced by what it stands for, from a record of used files on. -/
def expand (w : Workspace) (width : UInt64) (s : Sources) : List Token → Expansion w s
  | [] => ⟨[], .ok ⟨s, Nat.le_refl _⟩⟩
  | t :: rest =>
    if t.kind.isDirective then
      match rest with
      | [] => ⟨[bareDirective t], .ok ⟨s, Nat.le_refl _⟩⟩
      | name :: rest =>
        if name.kind ≠ .keywordText then
          (expand w width s (name :: rest)).behind [bareDirective t]
        else if t.kind = .includeFile then
          match h : s.load w name.text with
          | (_, .error fault) => ⟨[], .error (.ofToken fault.message name)⟩
          | (opened, .ok file) =>
            have hlt := Sources.unread_lt_of_load h
            let inner := expand w width opened
              (contentTokens (Outline.tokens width file.name file.contents))
            match inner.outcome with
            | .error d => ⟨inner.events, .error d⟩
            | .ok ⟨left, hle⟩ =>
              ((expand w width left rest).behind inner.events).since
                (Nat.le_trans hle (Nat.le_of_lt hlt))
        else
          match embeddedEvents w s name with
          | .error d => ⟨[], .error d⟩
          | .ok es => (expand w width s rest).behind es
    else (expand w width s rest).behind [.token t]
  termination_by ts => (s.unread w, ts.length)

/-! ### Files without the marks for their ends -/

private theorem contentTokens_concat {ts : List Token} {e : Token}
    (hts : ∀ t ∈ ts, t.kind ≠ .endOfFile)
    (he : e.kind = .endOfFile) : contentTokens (ts ++ [e]) = ts := by
  rw [contentTokens, List.filter_append,
    List.filter_eq_self.mpr fun t ht => by simpa using hts t ht]
  simp [he]

/-- There is no mark for the end in the content of an outline. -/
theorem Outline.kind_of_mem_content {width : UInt64} {fileName source : String} :
    ∀ t ∈ content width fileName source, t.kind ≠ .endOfFile := by
  intro t ht he
  have hkind := kinds_of_content t ht
  rw [he] at hkind
  cases hkind

private theorem contentTokens_outline (width : UInt64) (fileName source : String) :
    contentTokens (Outline.tokens width fileName source) = Outline.content width fileName source :=
  contentTokens_concat Outline.kind_of_mem_content rfl

private theorem kind_of_mem_contentTokens {ts : List Token} {t : Token}
    (ht : t ∈ contentTokens ts) :
    t.kind ≠ .endOfFile := by
  simpa using (List.mem_filter.mp ht).2

/-- An outline is its content up to the mark for its end. -/
theorem outline_eq (width : UInt64) (fileName source : String) :
    ∃ e, Outline.tokens width fileName source =
      contentTokens (Outline.tokens width fileName source) ++ [e] ∧ e.kind = .endOfFile := by
  rw [contentTokens_outline]
  exact ⟨_, Outline.tokens_eq_content width fileName source, rfl⟩

namespace Embedding

/-- The tokens of an embedded file without the mark for its end. -/
def content (fileName source : String) : List Token :=
  textToken fileName "" ("File: " ++ fileName) 1 ::
    textToken fileName "" (fence ++ language fileName) 1 ::
    (lineTokens fileName 1 (Text.lines source.toList) ++
      [textToken fileName "" fence ((Text.lines source.toList).length + 1)])

/-- The tokens of an embedded file are its content and the mark for its end. -/
theorem tokens_eq_content (fileName source : String) :
    tokens fileName source = content fileName source ++
      [Token.endOfFile fileName ((Text.lines source.toList).length + 1)] := by
  simp [tokens, content]

/-- The lines of an embedded file are texts. -/
theorem kind_of_mem_lineTokens {fileName : String} {number : Nat} {ls : List (List Char)}
    {t : Token} (ht : t ∈ lineTokens fileName number ls) : t.kind = .text := by
  induction ls generalizing number with
  | nil => cases ht
  | cons l ls ih =>
    rcases List.mem_cons.mp ht with rfl | ht
    · rfl
    · exact ih ht

/-- The content of an embedded file consists of texts. -/
theorem kind_of_content {fileName source : String} {t : Token}
    (ht : t ∈ content fileName source) : t.kind = .text := by
  simp only [content, List.mem_cons, List.mem_append, List.not_mem_nil, or_false] at ht
  rcases ht with rfl | rfl | ht | rfl
  · rfl
  · rfl
  · exact kind_of_mem_lineTokens ht
  · rfl

end Embedding

/-- Up to the mark for the end, the tokens of an embedded file are its content. -/
theorem contentTokens_embedding (fileName source : String) :
    contentTokens (Embedding.tokens fileName source) = Embedding.content fileName source := by
  rw [Embedding.tokens_eq_content]
  exact contentTokens_concat (fun t ht => by simp [Embedding.kind_of_content ht]) rfl

/-! ### Steps by what stands first -/

namespace Stream

variable {w : Workspace} {width : UInt64}

/-- A step at the mark for the end closes the innermost file. -/
theorem step_ending {s : Sources} {e ending : Token} {rest : List Token}
    {outer : List (List Token)} (he : e.kind = .endOfFile) :
    step w width { sources := s, opened := (e :: rest) :: outer, ending } =
      .next [] { sources := s, opened := outer, ending := e } := by
  simp only [step, he]

/-- A step at any other token gives that token. -/
theorem step_token {s : Sources} {t ending : Token} {rest : List Token}
    {outer : List (List Token)} (ht : isInner t.kind = false) :
    step w width { sources := s, opened := (t :: rest) :: outer, ending } =
      .next [.token t] { sources := s, opened := rest :: outer, ending } := by
  simp only [step]
  split
  · next hk => rw [hk] at ht; cases ht
  · next hk => rw [hk] at ht; cases ht
  · next hk => rw [hk] at ht; cases ht
  · rfl

/-- A step at a directive without a text reports it. -/
theorem step_bare {s : Sources} {t ending : Token} {rest : List Token}
    {outer : List (List Token)} (ht : t.kind.isDirective = true)
    (hrest : ∀ name ∈ rest.head?, name.kind ≠ .keywordText) :
    step w width { sources := s, opened := (t :: rest) :: outer, ending } =
      .next [bareDirective t] { sources := s, opened := rest :: outer, ending } := by
  have hkind : t.kind = .includeFile ∨ t.kind = .embedFiles := by
    cases hk : t.kind <;> simp_all [TokenKind.isDirective]
  cases rest with
  | nil => rcases hkind with hk | hk <;> simp [step, hk, bareDirective]
  | cons name rest =>
    have hname : name.kind ≠ .keywordText := hrest name rfl
    rcases hkind with hk | hk <;> simp [step, hk, hname, bareDirective]

/-- A step at an include that cannot be loaded fails. -/
theorem step_include_error {s s' : Sources} {t name ending : Token} {rest : List Token}
    {outer : List (List Token)} {fault : LoadFault} (ht : t.kind = .includeFile)
    (hname : name.kind = .keywordText) (hload : s.load w name.text = (s', .error fault)) :
    step w width { sources := s, opened := (t :: name :: rest) :: outer, ending } =
      .failed (.ofToken fault.message name) := by
  simp only [step, ht, hname, includeFile, hload, if_true]

/-- A step at an include opens its outline. -/
theorem step_include {s s' : Sources} {t name ending : Token} {rest : List Token}
    {outer : List (List Token)} {file : SourceFile} (ht : t.kind = .includeFile)
    (hname : name.kind = .keywordText) (hload : s.load w name.text = (s', .ok file)) :
    step w width { sources := s, opened := (t :: name :: rest) :: outer, ending } =
      .next []
        { sources := s',
          opened := Outline.tokens width file.name file.contents :: rest :: outer, ending } := by
  simp only [step, ht, hname, includeFile, hload, if_true]

/-- A step at an embedding of files that cannot be read fails. -/
theorem step_embed_error {s : Sources} {t pattern ending : Token} {rest : List Token}
    {outer : List (List Token)} {d : Diagnostic} (ht : t.kind = .embedFiles)
    (hpattern : pattern.kind = .keywordText) (hes : embeddedEvents w s pattern = .error d) :
    step w width { sources := s, opened := (t :: pattern :: rest) :: outer, ending } =
      .failed d := by
  simp only [step, ht, hpattern, if_true, embedFiles]
  rw [embeddedEvents] at hes
  cases hexpand : s.expand w pattern.text with
  | error fault =>
    simp only [hexpand] at hes ⊢
    split at hes
    · next hfatal =>
      cases hes
      rw [if_pos hfatal]
    · cases hes
  | ok found =>
    cases found with
    | nil =>
      rw [hexpand] at hes
      cases hes
    | cons path paths =>
      simp only [hexpand] at hes ⊢
      cases hfiles : (path :: paths).mapM (Sources.loadEmbedded w) with
      | error fault =>
        rw [hfiles] at hes
        cases hes
        rfl
      | ok files =>
        rw [hfiles] at hes
        cases hes

/-- An embedding gives a problem, or it opens the matched files before the rest. -/
theorem step_embed {s : Sources} {t pattern ending : Token} {rest : List Token}
    {outer : List (List Token)} {es : List Event} (ht : t.kind = .embedFiles)
    (hpattern : pattern.kind = .keywordText) (hes : embeddedEvents w s pattern = .ok es) :
    ∃ (problems : List Event) (files : List SourceFile), es = problems ++
        (files.flatMap fun f => contentTokens (Embedding.tokens f.name f.contents)).map .token ∧
      step w width { sources := s, opened := (t :: pattern :: rest) :: outer, ending } =
        .next problems
          { sources := s,
            opened := files.map (fun f => Embedding.tokens f.name f.contents) ++ rest :: outer,
            ending } := by
  simp only [step, ht, hpattern, if_true, embedFiles]
  rw [embeddedEvents] at hes
  cases hexpand : s.expand w pattern.text with
  | error fault =>
    simp only [hexpand] at hes ⊢
    split at hes
    · cases hes
    · next hfatal =>
      cases hes
      exact ⟨_, [], (List.append_nil _).symm, if_neg hfatal⟩
  | ok found =>
    cases found with
    | nil =>
      rw [hexpand] at hes
      cases hes
      exact ⟨_, [], (List.append_nil _).symm, rfl⟩
    | cons path paths =>
      simp only [hexpand] at hes ⊢
      cases hfiles : (path :: paths).mapM (Sources.loadEmbedded w) with
      | error fault =>
        rw [hfiles] at hes
        cases hes
      | ok files =>
        rw [hfiles] at hes
        cases hes
        exact ⟨[], files, rfl, rfl⟩

private theorem run_ending {s : Sources} {e ending : Token} {rest : List Token}
    {outer : List (List Token)} (he : e.kind = .endOfFile) :
    run w width { sources := s, opened := (e :: rest) :: outer, ending } =
      run w width { sources := s, opened := outer, ending := e } := by
  rw [run_of_next (step_ending he)]
  rfl

/-- A token that is no directive and ends no file is given as it is. -/
theorem run_token {s : Sources} {t ending : Token} {rest : List Token}
    {outer : List (List Token)} (ht : isInner t.kind = false) :
    run w width { sources := s, opened := (t :: rest) :: outer, ending } =
      (.token t :: (run w width { sources := s, opened := rest :: outer, ending }).1,
        (run w width { sources := s, opened := rest :: outer, ending }).2) := by
  rw [run_of_next (step_token ht)]
  rfl

/-- A directive without the text that names a file is dropped with a problem. -/
theorem run_bare {s : Sources} {t ending : Token} {rest : List Token}
    {outer : List (List Token)} (ht : t.kind.isDirective = true)
    (hrest : ∀ name ∈ rest.head?, name.kind ≠ .keywordText) :
    run w width { sources := s, opened := (t :: rest) :: outer, ending } =
      (bareDirective t :: (run w width { sources := s, opened := rest :: outer, ending }).1,
        (run w width { sources := s, opened := rest :: outer, ending }).2) := by
  rw [run_of_next (step_bare ht hrest)]
  rfl

/-- Tokens of which none is a directive are given as they are, up to the end of their file. -/
theorem run_plain {s : Sources} {ts : List Token} {e ending : Token}
    {outer : List (List Token)} (hts : ∀ t ∈ ts, isInner t.kind = false)
    (he : e.kind = .endOfFile) :
    run w width { sources := s, opened := (ts ++ [e]) :: outer, ending } =
      (ts.map .token ++ (run w width { sources := s, opened := outer, ending := e }).1,
        (run w width { sources := s, opened := outer, ending := e }).2) := by
  induction ts with
  | nil => exact run_ending he
  | cons t ts ih =>
    rw [List.cons_append, run_token (hts t (by simp)), ih fun u hu => hts u (by simp [hu])]
    rfl

/-- Embedded files are given one behind the other. -/
theorem run_embedded (s : Sources) (files : List SourceFile) (outer : List (List Token))
    (ending : Token) :
    ∃ last, run w width
        { sources := s,
          opened := files.map (fun f => Embedding.tokens f.name f.contents) ++ outer, ending } =
      ((files.flatMap fun f => contentTokens (Embedding.tokens f.name f.contents)).map .token ++
          (run w width { sources := s, opened := outer, ending := last }).1,
        (run w width { sources := s, opened := outer, ending := last }).2) := by
  induction files generalizing ending with
  | nil => exact ⟨ending, rfl⟩
  | cons f files ih =>
    let e := Token.endOfFile f.name ((Text.lines f.contents.toList).length + 1)
    obtain ⟨last, hlast⟩ := ih e
    refine ⟨last, ?_⟩
    have hplain : ∀ t ∈ Embedding.content f.name f.contents, isInner t.kind = false := by
      intro t ht
      rw [Embedding.kind_of_content ht]
      rfl
    rw [List.map_cons, List.cons_append, Embedding.tokens_eq_content, run_plain hplain rfl, hlast,
      List.flatMap_cons, contentTokens_embedding, List.map_append, List.append_assoc]

private theorem run_include_error {s s' : Sources} {t name ending : Token} {rest : List Token}
    {outer : List (List Token)} {fault : LoadFault} (ht : t.kind = .includeFile)
    (hname : name.kind = .keywordText) (hload : s.load w name.text = (s', .error fault)) :
    run w width { sources := s, opened := (t :: name :: rest) :: outer, ending } =
      ([], .failed (.ofToken fault.message name)) :=
  run_of_failed (step_include_error ht hname hload)

/-- An included outline stands before the rest of the file that includes it. -/
theorem run_include {s s' : Sources} {t name ending : Token} {rest : List Token}
    {outer : List (List Token)} {file : SourceFile} (ht : t.kind = .includeFile)
    (hname : name.kind = .keywordText) (hload : s.load w name.text = (s', .ok file)) :
    run w width { sources := s, opened := (t :: name :: rest) :: outer, ending } =
      run w width
        { sources := s',
          opened := Outline.tokens width file.name file.contents :: rest :: outer, ending } := by
  rw [run_of_next (step_include ht hname hload)]
  rfl

private theorem run_embed_error {s : Sources} {t pattern ending : Token} {rest : List Token}
    {outer : List (List Token)} {d : Diagnostic} (ht : t.kind = .embedFiles)
    (hpattern : pattern.kind = .keywordText) (hes : embeddedEvents w s pattern = .error d) :
    run w width { sources := s, opened := (t :: pattern :: rest) :: outer, ending } =
      ([], .failed d) :=
  run_of_failed (step_embed_error ht hpattern hes)

/-- Embedded files stand before the rest of the file that embeds them. -/
theorem run_embed {s : Sources} {t pattern ending : Token} {rest : List Token}
    {outer : List (List Token)} {es : List Event} (ht : t.kind = .embedFiles)
    (hpattern : pattern.kind = .keywordText) (hes : embeddedEvents w s pattern = .ok es) :
    ∃ last, run w width { sources := s, opened := (t :: pattern :: rest) :: outer, ending } =
      (es ++ (run w width { sources := s, opened := rest :: outer, ending := last }).1,
        (run w width { sources := s, opened := rest :: outer, ending := last }).2) := by
  obtain ⟨problems, files, rfl, hstep⟩ := step_embed ht hpattern hes
  obtain ⟨last, hlast⟩ := run_embedded s files (rest :: outer) ending
  exact ⟨last, by rw [run_of_next hstep, hlast, List.append_assoc]⟩

/-- A directive that is no include is an embedding. -/
theorem embedFiles_of_directive {t : Token} (ht : t.kind.isDirective = true)
    (hkind : t.kind ≠ .includeFile) : t.kind = .embedFiles := by
  cases hk : t.kind <;> simp_all [TokenKind.isDirective]

/-- The stream gives the expansion of the innermost file and goes on with the files around it. -/
theorem run_content {s : Sources} {ts : List Token} {e ending : Token} {outer : List (List Token)}
    (hts : ∀ t ∈ ts, t.kind ≠ .endOfFile) (he : e.kind = .endOfFile) :
    run w width { sources := s, opened := (ts ++ [e]) :: outer, ending } =
      (expand w width s ts).followedBy fun left =>
        run w width { sources := left, opened := outer, ending := e } := by
  -- Along the recursion of the expansion, uniformly in the files around the innermost one.
  fun_induction expand w width s ts generalizing e outer ending with
  | case1 s => exact run_ending he
  | case2 s t ht =>
    have hrest : ∀ name ∈ ([e] : List Token).head?, name.kind ≠ .keywordText := by simp [he]
    exact (run_bare ht hrest).trans (by rw [run_ending he]; rfl)
  | case3 s t ht name rest hname ih =>
    have hrest : ∀ n ∈ (name :: (rest ++ [e])).head?, n.kind ≠ .keywordText := by simp [hname]
    rw [List.cons_append, List.cons_append, run_bare ht hrest, ← List.cons_append,
      ih (fun u hu => hts u (List.mem_cons_of_mem t hu)) he, Expansion.followedBy_behind]
    rfl
  | case4 s t _ name rest hname ht s' fault hload =>
    exact run_include_error ht (not_not.mp hname) hload
  | case5 s t _ name rest hname ht s' file hload _ inner d hinner =>
    rename_i ih
    obtain ⟨last, heq, hlast⟩ := outline_eq width file.name file.contents
    rw [List.cons_append, List.cons_append, run_include ht (not_not.mp hname) hload, heq,
      ih (fun u hu => kind_of_mem_contentTokens hu) hlast, Expansion.followedBy_of_error hinner]
    rfl
  | case6 s t _ name rest hname ht s' file hload _ inner left hle hinner ihinner =>
    rename_i ihrest
    have hne : ∀ u ∈ rest, u.kind ≠ .endOfFile := fun u hu => hts u (by simp [hu])
    obtain ⟨last, heq, hlast⟩ := outline_eq width file.name file.contents
    rw [List.cons_append, List.cons_append, run_include ht (not_not.mp hname) hload, heq,
      ihinner (fun u hu => kind_of_mem_contentTokens hu) hlast, Expansion.followedBy_of_ok hinner,
      ihrest hne he, Expansion.followedBy_since, Expansion.followedBy_behind]
  | case7 s t ht name rest hname hkind d hes =>
    exact run_embed_error (embedFiles_of_directive ht hkind) (not_not.mp hname) hes
  | case8 s t ht name rest hname hkind es hes ih =>
    have hne : ∀ u ∈ rest, u.kind ≠ .endOfFile := fun u hu => hts u (by simp [hu])
    obtain ⟨last, hlast⟩ := run_embed (embedFiles_of_directive ht hkind) (not_not.mp hname) hes
    rw [List.cons_append, List.cons_append, hlast, ih hne he, Expansion.followedBy_behind]
  | case9 s t rest ht ih =>
    have hne : ∀ u ∈ rest, u.kind ≠ .endOfFile := fun u hu => hts u (by simp [hu])
    have hplain : isInner t.kind = false := by
      simp [isInner, ht, hts t]
    rw [List.cons_append, run_token hplain, ih hne he, Expansion.followedBy_behind]
    rfl

/-! ### Token by token -/

/-- A step gives at most one event. -/
theorem length_of_step {s s' : Stream} {es : List Event} (h : s.step w width = .next es s') :
    es.length ≤ 1 := by
  unfold step includeFile embedFiles at h
  split at h
  · cases h
  · cases h
    simp
  · split at h
    · cases h
      simp
    · split at h
      · split at h
        · split at h
          · cases h
          · cases h
            simp
        · cases h
          simp
      · cases h
        simp
    · split at h
      · split at h
        · split at h
          · split at h
            · cases h
            · cases h
              simp
          · cases h
            simp
          · split at h
            · cases h
            · cases h
              simp
        · cases h
          simp
      · cases h
        simp
    · cases h
      simp

/-- Ask a stream for a token: step until one comes. At the end of all files it is the mark of the
file that ended last, however often the stream is asked. -/
def next (w : Workspace) (width : UInt64) (s : Stream) : Except Diagnostic (Token × Stream) :=
  match _h : s.step w width with
  | .finished => .ok (s.ending, s)
  | .failed d => .error d
  | .next es s' =>
    match Event.tokens es with
    | [] => next w width s'
    | t :: _ => .ok (t, s')
  termination_by (s.unused w, s.directives, s.waiting)
  decreasing_by exact below_of_step _h

/-- The answer when a stream is asked for a token once more after `n` answers. -/
def nthToken (w : Workspace) (width : UInt64) : Nat → Stream → Except Diagnostic Token
  | 0, s => (s.next w width).map (·.1)
  | n + 1, s => (s.next w width).bind fun r => nthToken w width n r.2

/-- The answer at a place when tokens are given and then their outcome. -/
def answer (ts : List Token) (outcome : Outcome) (n : Nat) : Except Diagnostic Token :=
  match ts[n]?, outcome with
  | some t, _ => .ok t
  | none, .finished ending => .ok ending
  | none, .failed d => .error d

private theorem next_of_finished {s : Stream} (h : s.step w width = .finished) :
    s.next w width = .ok (s.ending, s) := by
  rw [next]
  split
  · rfl
  · next hs => rw [h] at hs; cases hs
  · next hs => rw [h] at hs; cases hs

private theorem next_of_failed {s : Stream} {d : Diagnostic} (h : s.step w width = .failed d) :
    s.next w width = .error d := by
  rw [next]
  split
  · next hs => rw [h] at hs; cases hs
  · next hs => rw [h] at hs; cases hs; rfl
  · next hs => rw [h] at hs; cases hs

private theorem next_of_next {s s' : Stream} {es : List Event} (h : s.step w width = .next es s') :
    s.next w width = match Event.tokens es with
      | [] => s'.next w width
      | t :: _ => .ok (t, s') := by
  rw [next]
  split
  · next hs => rw [h] at hs; cases hs
  · next hs => rw [h] at hs; cases hs
  · next hs => rw [h] at hs; cases hs; rfl

private theorem nthToken_congr {s s' : Stream} (h : s.next w width = s'.next w width) (n : Nat) :
    s.nthToken w width n = s'.nthToken w width n := by
  cases n <;> simp only [nthToken, h]

/-- The answers of a stream are the tokens of its run, and then its outcome forever. -/
theorem nthToken_eq_answer (s : Stream) (n : Nat) :
    s.nthToken w width n = answer (Event.tokens (s.run w width).1) (s.run w width).2 n := by
  induction s using run_induction w width generalizing n with
  | finished s h =>
    rw [run_of_finished h]
    induction n with
    | zero => simp [nthToken, next_of_finished h, Except.map, answer, Event.tokens]
    | succ n ih =>
      rw [nthToken, next_of_finished h]
      exact ih
  | failed s d h =>
    rw [run_of_failed h]
    cases n <;> simp [nthToken, next_of_failed h, Except.map, Except.bind, answer, Event.tokens]
  | next s es s' h ih =>
    have hnext := next_of_next h
    rw [run_of_next h, Event.tokens_append]
    match hes : es, length_of_step h with
    | [], _ => exact (nthToken_congr hnext n).trans (ih n)
    | [.problem d], _ => exact (nthToken_congr hnext n).trans (ih n)
    | [.token t], _ =>
      cases n with
      | zero =>
        simp only [nthToken, hnext]
        rfl
      | succ n =>
        simp only [nthToken, hnext]
        exact ih n

end Stream

/-! ### Names -/

/-- Whether a token is the text of a keyword line. -/
def IsName (t : Token) : Prop := t.kind = .keywordText

private theorem tokens_embeddedEvents {w : Workspace} {s : Sources} {pattern : Token}
    {es : List Event} (h : embeddedEvents w s pattern = .ok es) :
    ∀ t ∈ Event.tokens es, t.kind = .text := by
  unfold embeddedEvents at h
  split at h
  · split at h
    · cases h
    · cases h
      simp [Event.tokens]
  · cases h
    simp [Event.tokens]
  · split at h
    · cases h
    · cases h
      rw [Event.tokens_map]
      intro t ht
      obtain ⟨f, _, hf⟩ := List.mem_flatMap.mp ht
      rw [contentTokens_embedding] at hf
      exact Embedding.kind_of_content hf

private theorem head_behind_name {name : Token} {rest : List Token} (hname : IsName name)
    (h : (name :: rest).IsChain fun a b => IsName b → Outline.IsKeyword a) :
    ∀ t ∈ rest.head?, ¬ IsName t := by
  intro t ht hn
  have hkey : Outline.IsKeyword name := (List.isChain_cons.mp h).1 t ht hn
  rw [IsName] at hname
  simp [Outline.IsKeyword, hname, TokenKind.isBlock, TokenKind.isDirective] at hkey

/-- An expansion starts with a name only if the tokens do, and every other name in it stands right
behind the keyword of a block: the names of files are gone with their directives. -/
theorem names_of_expand {w : Workspace} {width : UInt64} {s : Sources} {ts : List Token}
    (hts : ts.IsChain fun a b => IsName b → Outline.IsKeyword a) :
    ((expand w width s ts).tokens.IsChain fun a b => IsName b → a.kind.isBlock = true) ∧
      ((∀ t ∈ ts.head?, ¬ IsName t) → ∀ t ∈ (expand w width s ts).tokens.head?, ¬ IsName t) := by
  fun_induction expand w width s ts with
  | case1 s => exact ⟨.nil, fun _ => by simp [Expansion.tokens, Event.tokens]⟩
  | case2 s t ht => exact ⟨.nil, fun _ => by simp [Expansion.tokens, Event.tokens, bareDirective]⟩
  | case3 s t ht name rest hname ih =>
    obtain ⟨hchain, hhead⟩ := ih (List.isChain_cons.mp hts).2
    exact ⟨hchain, fun _ => hhead (by simpa [IsName] using hname)⟩
  | case4 s t _ name rest hname ht s' fault hload =>
    exact ⟨.nil, fun _ => by simp [Expansion.tokens, Event.tokens]⟩
  | case5 s t _ name rest hname ht s' file hload _ inner d hinner =>
    rename_i ih
    have hfile := Outline.guarded_content width file.name file.contents
    rw [← contentTokens_outline] at hfile
    obtain ⟨hchain, hhead⟩ := ih hfile.chain
    exact ⟨hchain, fun _ => hhead hfile.head⟩
  | case6 s t _ name rest hname ht s' file hload _ inner left hle hinner ihinner =>
    rename_i ihrest
    have hfile := Outline.guarded_content width file.name file.contents
    rw [← contentTokens_outline] at hfile
    obtain ⟨hchain, hhead⟩ := ihinner hfile.chain
    have hnames := (List.isChain_cons.mp hts).2
    obtain ⟨hchain', hhead'⟩ := ihrest (List.isChain_cons.mp hnames).2
    have hall : Guarded IsName (·.kind.isBlock = true)
        (inner.tokens ++ (expand w width left rest).tokens) :=
      Guarded.append ⟨hchain, hhead hfile.head⟩
        ⟨hchain', hhead' (head_behind_name (not_not.mp hname) hnames)⟩
    rw [Expansion.tokens_since, Expansion.tokens_behind]
    exact ⟨hall.chain, fun _ => hall.head⟩
  | case7 s t ht name rest hname hkind d hes =>
    exact ⟨.nil, fun _ => by simp [Expansion.tokens, Event.tokens]⟩
  | case8 s t ht name rest hname hkind es hes ih =>
    have hnames := (List.isChain_cons.mp hts).2
    obtain ⟨hchain, hhead⟩ := ih (List.isChain_cons.mp hnames).2
    have hembedded : Guarded IsName (·.kind.isBlock = true) (Event.tokens es) :=
      .of_forall fun u hu => by simp [IsName, tokens_embeddedEvents hes u hu]
    have hall := hembedded.append
      ⟨hchain, hhead (head_behind_name (not_not.mp hname) hnames)⟩
    rw [Expansion.tokens_behind]
    exact ⟨hall.chain, fun _ => hall.head⟩
  | case9 s t rest ht ih =>
    obtain ⟨hfirst, hrest⟩ := List.isChain_cons.mp hts
    obtain ⟨hchain, hhead⟩ := ih hrest
    have hstep : ∀ u ∈ (expand w width s rest).tokens.head?, IsName u → t.kind.isBlock = true := by
      intro u hu hn
      by_contra hblock
      have hnone : ∀ v ∈ rest.head?, ¬ IsName v := fun v hv hnv =>
        (hfirst v hv hnv).elim hblock ht
      exact hhead hnone u hu hn
    refine ⟨List.isChain_cons.mpr ⟨hstep, hchain⟩, fun h => ?_⟩
    exact h

/-! ### The stream of one outline -/

/-- A run through one outline gives its expansion, and then the mark for its end or the failure. -/
theorem Stream.run_outline (w : Workspace) (width : UInt64) (s : Sources)
    (fileName source : String) :
    Stream.run w width { sources := s, opened := [Outline.tokens width fileName source] } =
      ((expand w width s (contentTokens (Outline.tokens width fileName source))).events,
        (expand w width s (contentTokens (Outline.tokens width fileName source))).ended
          (Token.endOfFile fileName ((Text.lines source.toList).length + 1))) := by
  have hend (left : Sources) (ending : Token) :
      Stream.run w width { sources := left, opened := [], ending } = ([], .finished ending) :=
    Stream.run_of_finished rfl
  rw [contentTokens_outline, Outline.tokens_eq_content, Stream.run_content
    Outline.kind_of_mem_content rfl]
  simp only [hend]
  exact Expansion.followedBy_finished _ _

/-- The stream of open files refines splicing, for every workspace, record of files and outline.
Asked again and again, it gives the tokens of the expansion of the outline; then, if nothing
failed, the mark for the end of the outline forever, and otherwise the failure. No directive is
among the tokens, nor a name that belongs to one. -/
theorem Stream.nthToken_eq_expand (w : Workspace) (width : UInt64) (s : Sources)
    (fileName source : String) :
    let entry : Stream := { sources := s, opened := [Outline.tokens width fileName source] }
    let spliced := expand w width s (contentTokens (Outline.tokens width fileName source))
    let ending := Token.endOfFile fileName ((Text.lines source.toList).length + 1)
    entry.run w width = (spliced.events, spliced.ended ending) ∧
      (∀ n, entry.nthToken w width n = Stream.answer spliced.tokens (spliced.ended ending) n) ∧
      (∀ t ∈ spliced.tokens, Stream.isInner t.kind = false) ∧
      Guarded IsName (·.kind.isBlock = true) spliced.tokens := by
  intro entry spliced ending
  have hrun : entry.run w width = (spliced.events, spliced.ended ending) :=
    Stream.run_outline w width s fileName source
  refine ⟨hrun, ?_, ?_, ?_⟩
  · intro n
    rw [Stream.nthToken_eq_answer, hrun]
    rfl
  · intro t ht
    apply Stream.kind_of_mem_run entry t
    rw [hrun]
    exact Event.mem_tokens.mp ht
  · have hfile := Outline.guarded_content width fileName source
    rw [← contentTokens_outline] at hfile
    obtain ⟨hchain, hhead⟩ := names_of_expand hfile.chain
    exact ⟨hchain, hhead hfile.head⟩

end PromptOutline
