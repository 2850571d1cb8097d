import PromptOutline.Proofs.Carets
import PromptOutline.Proofs.Embedded
import PromptOutline.Proofs.Reports
import PromptOutline.Proofs.Trails
import PromptOutline.Proofs.Varying

/-!
# Places of reports

A reading opens one file after the other: the outline it starts from, those that are included, and
those that are embedded. Every token it takes belongs to one of them. So a report names a file that
was opened, shows the line of its number in that file, and has its caret where that line shows the
token.
-/

namespace PromptOutline

/-! ### The files of a reading -/

/-- A file of a reading, with the name it was opened under and its text. -/
inductive ReadFile where
  | outline (name text : String)
  | embedded (name text : String)
  deriving Repr, DecidableEq

namespace ReadFile

/-- The name that a file was opened under. -/
def name : ReadFile → String
  | outline name _ => name
  | embedded name _ => name

/-- The lines of a file. -/
def lines : ReadFile → List (List Char)
  | outline _ text => Text.lines text.toList
  | embedded _ text => Text.lines text.toList

/-- The tokens that a file is cut into. -/
def tokens (width : UInt64) : ReadFile → List Token
  | outline name text => Outline.tokens width name text
  | embedded name text => Embedding.tokens name text

/-- The tokens that a file has beside those of its lines and the mark for its end: the marks that
close an outline, or what is added to an embedded file. -/
def IsBeside (f : ReadFile) (t : Token) : Prop :=
  match f with
  | outline _ _ => t.kind = .outdent ∧ t.line = f.lines.length + 1
  | embedded name text => t ∈ Embedding.added name text

end ReadFile

namespace Stream

variable {w : Workspace} {width : UInt64} {s s' : Stream}

/-- The files that the next step of a stream opens. -/
def opening (w : Workspace) (s : Stream) : List ReadFile :=
  (s.outline? w).toList.map (fun f => .outline f.name f.contents) ++
    (s.embeddings w).map fun f => .embedded f.name f.contents

/-- The files that a run opens, in the order of the run. -/
def openings (w : Workspace) (width : UInt64) (s : Stream) : List ReadFile :=
  s.opening w ++
    match _h : s.step w width with
    | .next _ s' => openings w width s'
    | _ => []
  termination_by (s.unused w, s.directives, s.waiting)
  decreasing_by exact below_of_step _h

/-- A run opens what its first step opens, and what is left of it does. -/
theorem openings_of_next {es : List Event} (h : s.step w width = .next es s') :
    s.openings w width = s.opening w ++ s'.openings w width := by
  rw [openings]
  split
  · next hs => rw [h] at hs; cases hs; rfl
  · next hs => exact absurd h (hs es s')

/-- The files that a run opens, if it is over within some steps. -/
def openingsWithin? (w : Workspace) (width : UInt64) : Nat → Stream → Option (List ReadFile)
  | 0, _ => none
  | steps + 1, s =>
    match s.step w width with
    | .next _ s' => (openingsWithin? w width steps s').map (s.opening w ++ ·)
    | _ => some (s.opening w)

/-- A run that is over within some steps opens what those steps open. -/
theorem openings_of_within {steps : Nat} {s : Stream} {rs : List ReadFile}
    (h : openingsWithin? w width steps s = some rs) : s.openings w width = rs := by
  induction steps generalizing s rs with
  | zero => cases h
  | succ steps ih =>
    unfold openingsWithin? at h
    split at h
    · next hstep =>
      obtain ⟨others, hothers, rfl⟩ := Option.map_eq_some_iff.mp h
      rw [openings_of_next hstep, ih hothers]
    · next hstep =>
      rw [openings]
      split
      · next hnext => exact absurd hnext (hstep _ _)
      · rw [List.append_nil]
        exact Option.some.inj h

/-- `DrawnFrom width files ts`: the tokens `ts` all belong to one of the files. -/
def DrawnFrom (width : UInt64) (files : List ReadFile) (ts : List Token) : Prop :=
  ∃ f ∈ files, ts ⊆ f.tokens width

private theorem DrawnFrom.subset {files : List ReadFile} {ts us : List Token}
    (h : DrawnFrom width files ts) (hus : us ⊆ ts) : DrawnFrom width files us := by
  obtain ⟨f, hf, hts⟩ := h
  exact ⟨f, hf, fun t ht => hts (hus ht)⟩

private theorem mem_opened_of_mem_taking {t : Token} (h : t ∈ s.taking) :
    ∃ ts ∈ s.opened, t ∈ ts := by
  unfold taking at h
  split at h
  · next ho =>
    rw [ho]
    refine ⟨_, List.mem_cons_self, ?_⟩
    split at h
    · simp only [List.mem_cons, List.not_mem_nil, or_false] at h
      rcases h with rfl | rfl <;> simp
    · simp [List.mem_singleton.mp h]
  · next ho =>
    rw [ho]
    exact ⟨_, List.mem_cons_self, h⟩
  · cases h

/-- A step leaves open what was open before and what it opens. -/
theorem drawnFrom_of_step {files : List ReadFile} {es : List Event}
    (hstep : s.step w width = .next es s') (h : ∀ ts ∈ s.opened, DrawnFrom width files ts)
    (hopening : s.opening w ⊆ files) : ∀ ts ∈ s'.opened, DrawnFrom width files ts := by
  have hmove := move_step w width s
  generalize s.taking = taken at hmove
  rw [hstep] at hmove
  intro ts hts
  -- what is left of the innermost file, and the files around it
  have hrest {first rest : List Token} {outer : List (List Token)} (ho : s.opened = first :: outer)
      (hsub : rest ⊆ first) (hmem : ts ∈ rest :: outer) : DrawnFrom width files ts := by
    rcases List.mem_cons.mp hmem with rfl | hmem
    · exact (h first (by simp [ho])).subset hsub
    · exact h ts (by simp [ho, hmem])
  cases hmove with
  | dropped ho => exact h ts (by simp [ho, show ts ∈ _ from hts])
  | ended ho ht => exact h ts (by simp [ho, show ts ∈ _ from hts])
  | given ho ht => exact hrest ho (List.subset_cons_self ..) hts
  | bare ho ht _ => exact hrest ho (List.subset_cons_self ..) hts
  | @included t name rest outer sources f ho ht hname hload =>
    rcases List.mem_cons.mp hts with rfl | hts
    · refine ⟨.outline f.name f.contents, hopening ?_, List.Subset.refl _⟩
      simp [opening, outline?, ho, ht, hname, hload, Except.toOption]
    · exact hrest ho (by simp) hts
  | @embedded t pattern rest outer paths loaded ho ht hpattern hexpand hne hloaded =>
    rcases List.mem_append.mp hts with hts | hts
    · obtain ⟨f, hf, rfl⟩ := List.mem_map.mp hts
      refine ⟨.embedded f.name f.contents, hopening ?_, List.Subset.refl _⟩
      have hembeddings : s.embeddings w = loaded := by
        simp [embeddings, ho, ht, hpattern, hexpand, hloaded, Except.toOption]
      rw [opening, hembeddings]
      exact List.mem_append_right _ (List.mem_map_of_mem hf)
    · exact hrest ho (by simp) hts
  | unmatched ho ht hpattern hexpand => exact hrest ho (by simp) hts
  | misspelt ho ht hpattern hexpand => exact hrest ho (by simp) hts

end Stream

/-! ### The tokens of a ledger -/

namespace Ledger

variable {w : Workspace} {width : UInt64} {l l' : Ledger}

/-- Every token that was taken, and every one that waits, belongs to one of the files, and so will
those of the files still to be opened. -/
structure Drawn (w : Workspace) (width : UInt64) (files : List ReadFile) (l : Ledger) : Prop where
  taken : ∀ t ∈ l.taken, ∃ f ∈ files, t ∈ f.tokens width
  opened : ∀ ts ∈ l.reading.stream.opened, Stream.DrawnFrom width files ts
  ahead : l.reading.stream.openings w width ⊆ files

namespace Drawn

variable {files : List ReadFile}

private theorem taking (h : l.Drawn w width files) :
    ∀ t ∈ l.taken ++ l.reading.stream.taking, ∃ f ∈ files, t ∈ f.tokens width := by
  intro t ht
  rcases List.mem_append.mp ht with ht | ht
  · exact h.taken t ht
  · obtain ⟨ts, hts, hmem⟩ := Stream.mem_opened_of_mem_taking ht
    obtain ⟨f, hf, hsub⟩ := h.opened ts hts
    exact ⟨f, hf, hsub hmem⟩

private theorem round {r : Reading} (h : l.Drawn w width files)
    (hround : l.reading.round w width = .next r) : (l.goOn r).Drawn w width files := by
  unfold Reading.round at hround
  split at hround
  · cases hround
  · next es s hstep =>
    cases hround
    have hahead := h.ahead
    rw [Stream.openings_of_next hstep] at hahead
    exact ⟨h.taking, Stream.drawnFrom_of_step hstep h.opened (List.append_subset.mp hahead).1,
      (List.append_subset.mp hahead).2⟩
  · split at hround
    · cases hround
    · cases hround
      exact ⟨h.taking, h.opened, h.ahead⟩

/-- When reading is over, all tokens that were taken belong to the files. The last ones are those of
the last step. -/
theorem after {n : Nat} {result : Except (List Diagnostic) Document}
    (h : l.Drawn w width files) (hafter : Ledger.after w width n l = (l', some result)) :
    (∀ t ∈ l'.taken, ∃ f ∈ files, t ∈ f.tokens width) ∧
      l'.reading.stream.taking <:+ l'.taken := by
  induction n generalizing l with
  | zero => cases hafter
  | succ n ih =>
    rw [Ledger.after] at hafter
    cases hround : l.reading.round w width with
    | next r =>
      rw [hround] at hafter
      exact ih (h.round hround) hafter
    | ended result' =>
      rw [hround] at hafter
      cases hafter
      exact ⟨h.taking, List.suffix_append ..⟩

end Drawn

/-- `ReportedAt w width l d t`: in the ledger of a reading that is over, the problem `d` stands at
the token `t`. It was put down under the number of that token, or reading failed there. -/
inductive ReportedAt (w : Workspace) (width : UInt64) (l : Ledger) (d : Diagnostic) (t : Token) :
    Prop where
  | noted {n : Nat} (hreport : (n, d) ∈ l.reports) (ht : l.taken[n]? = some t)
  | failed (hstep : l.reading.stream.step w width = .failed d) (ht : l.taken.getLast? = some t)

/-- A step that fails takes tokens, and its problem is one of the last of them. -/
theorem ofToken_of_failed {s : Stream} {d : Diagnostic} (h : s.step w width = .failed d) :
    ∃ t, s.taking.getLast? = some t ∧ d = .ofToken d.message t := by
  have hmove := Stream.move_step w width s
  rw [h] at hmove
  generalize s.taking = taken at hmove
  cases hmove with
  | notIncluded => exact ⟨_, rfl, rfl⟩
  | notEmbedded => exact ⟨_, rfl, rfl⟩

private theorem getLast?_of_failed {d : Diagnostic} (hsuffix : l.reading.stream.taking <:+ l.taken)
    (h : l.reading.stream.step w width = .failed d) :
    ∃ t, l.taken.getLast? = some t ∧ d = .ofToken d.message t := by
  obtain ⟨t, ht, hd⟩ := ofToken_of_failed h
  obtain ⟨before, htaken⟩ := hsuffix
  refine ⟨t, ?_, hd⟩
  rw [← htaken, List.getLast?_append, ht]
  rfl

/-- A report is one of its token, and that token was taken. -/
theorem ReportedAt.ofToken {d : Diagnostic} {t : Token} (h : l.ReportedAt w width d t)
    (hbalanced : l.Balanced) (hsuffix : l.reading.stream.taking <:+ l.taken) :
    d = .ofToken d.message t ∧ t ∈ l.taken := by
  cases h with
  | noted hreport ht =>
    obtain ⟨u, hu, hd⟩ := hbalanced.account.placed _ hreport
    rw [ht] at hu
    cases hu
    exact ⟨hd, List.mem_of_getElem? ht⟩
  | failed hstep ht =>
    obtain ⟨u, hu, hd⟩ := getLast?_of_failed hsuffix hstep
    rw [ht] at hu
    cases hu
    exact ⟨hd, List.mem_of_getLast? ht⟩

/-- Every problem that reading ends with stands at a token. -/
theorem exists_reportedAt {problems : List Diagnostic} {d : Diagnostic} (hbalanced : l.Balanced)
    (hsuffix : l.reading.stream.taking <:+ l.taken)
    (hresult : l.reading.stream.step w width = .finished ∧
        Except.error problems = l.reading.builder.result ∨
      ∃ d, l.reading.stream.step w width = .failed d ∧
        (Except.error problems : Except (List Diagnostic) Document) =
          .error (l.reading.builder.problems ++ [d]))
    (hd : d ∈ problems) : ∃ t, l.ReportedAt w width d t := by
  have hnoted (h : d ∈ l.reading.builder.problems) : ∃ t, l.ReportedAt w width d t := by
    rw [← hbalanced.noted] at h
    obtain ⟨⟨n, d'⟩, hreport, rfl⟩ := List.mem_map.mp h
    obtain ⟨t, ht, -⟩ := hbalanced.account.placed _ hreport
    exact ⟨t, .noted hreport ht⟩
  rcases hresult with ⟨-, hresult⟩ | ⟨last, hstep, hresult⟩
  · unfold Builder.result at hresult
    split at hresult
    · cases hresult
    · cases hresult
      exact hnoted hd
  · cases hresult
    rcases List.mem_append.mp hd with hd | hd
    · exact hnoted hd
    · rw [List.mem_singleton.mp hd]
      obtain ⟨t, ht, -⟩ := getLast?_of_failed hsuffix hstep
      exact ⟨t, .failed hstep ht⟩

end Ledger

/-! ### Problems in their files -/

/-- The spaces that stand before the arrow of a problem. -/
def Diagnostic.pad (d : Diagnostic) : String := String.ofList (List.replicate (d.column - 1) ' ')

/-- A problem is shown with its arrow above the line. -/
theorem Diagnostic.render_eq {d : Diagnostic} (hline : 0 < d.line) {rest : String}
    (h : d.sourceLine = d.pad ++ rest) :
    d.render = s!"{d.message}: line {d.line}, column {d.column}, file {d.fileName}\n" ++
      d.pad ++ "|\n" ++ d.pad ++ "v\n" ++ d.pad ++ rest := by
  rw [render, if_pos (by simpa [isPositioned] using hline), h, pad]
  simp [toString, String.append_assoc]

/-- `PlacedIn d f t`: the problem `d` at the token `t` says truly where the file `f` has that
token. -/
structure Diagnostic.PlacedIn (d : Diagnostic) (f : ReadFile) (t : Token) : Prop where
  file : d.fileName = f.name
  line : d.sourceLine ≠ "" → f.lines[d.line - 1]? = some d.sourceLine.toList
  /-- Without a line to show, the token is no part of one or its line is empty. -/
  unshown : d.sourceLine = "" →
    t.kind = .endOfFile ∨ f.IsBeside t ∨ f.lines[d.line - 1]? = some []
  /-- The column is within the line, and before it there are only spaces. -/
  column : d.sourceLine ≠ "" → t.kind ≠ .keywordText → ¬(t.kind = .text ∧ t.text = "") →
    d.column ≤ (Text.Utf8.encode d.sourceLine).length ∧
      (Text.Utf8.encode d.sourceLine).take (d.column - 1) = List.replicate (d.column - 1) 0x20
  /-- The arrow points to where the line shows the token. -/
  arrow : d.sourceLine ≠ "" → t.kind ≠ .keywordText → ¬(t.kind = .text ∧ t.text = "") →
    ∃ heading rest, t.StartsAt rest ∧
      d.render = heading ++ d.pad ++ "|\n" ++ d.pad ++ "v\n" ++ d.pad ++ String.ofList rest

namespace ReadFile

variable {width : UInt64} {f : ReadFile} {t : Token}

private theorem fileName_of_mem_tokens (ht : t ∈ f.tokens width) : t.fileName = f.name := by
  cases f with
  | outline name text => exact Outline.fileName_of_mem_tokens t ht
  | embedded name text =>
    simp only [tokens, Embedding.tokens, List.mem_cons, List.mem_append, List.not_mem_nil,
      or_false] at ht
    rcases ht with rfl | rfl | ht | rfl | rfl
    · rfl
    · rfl
    · exact (Embedding.mem_lineTokens ht).1
    · rfl
    · rfl

/-- A token of a file was cut from one of its lines, or it has no line to show. -/
theorem cutFrom_of_mem_tokens (ht : t ∈ f.tokens width) :
    Outline.CutFrom f.lines t ∨ t.rawLine = "" ∧ (t.kind = .endOfFile ∨ f.IsBeside t) := by
  cases f with
  | outline name text =>
    rcases Outline.cutFrom_of_mem_tokens ht with hcut | ⟨hraw, hline, hkind | hkind⟩
    · exact .inl hcut
    · exact .inr ⟨hraw, .inr ⟨hkind, hline⟩⟩
    · exact .inr ⟨hraw, .inl hkind⟩
  | embedded name text =>
    rcases Embedding.cutFrom_of_mem_tokens ht with hcut | ⟨hraw, hadded | hkind⟩
    · exact .inl hcut
    · exact .inr ⟨hraw, .inr hadded⟩
    · exact .inr ⟨hraw, .inl hkind⟩

/-- A problem at a token of a file is placed there. -/
theorem placedIn_of_mem_tokens (ht : t ∈ f.tokens width) (ht' : 0 < t.line) (message : String) :
    (Diagnostic.ofToken message t).PlacedIn f t := by
  have hcut := cutFrom_of_mem_tokens ht
  have hshown (hne : t.rawLine ≠ "") : Outline.CutFrom f.lines t :=
    hcut.resolve_right fun h => hne h.1
  -- the line from the column on
  have hrest (hne : t.rawLine ≠ "") (hkind : t.kind ≠ .keywordText)
      (htext : ¬(t.kind = .text ∧ t.text = "")) :
      ∃ rest, t.rawLine.toList = List.replicate (t.column - 1) ' ' ++ rest ∧ t.StartsAt rest := by
    refine (hshown hne).caret ?_ hne
    simpa [Token.hasCaret, hkind, ← not_and_or] using htext
  constructor
  · exact fileName_of_mem_tokens ht
  · exact fun hne => (hshown hne).line
  · intro hnil
    rcases hcut with hcut | ⟨-, hkind | hbeside⟩
    · refine .inr (.inr ?_)
      rw [show (Diagnostic.ofToken message t).line = t.line from rfl, hcut.line]
      rw [show t.rawLine = "" from hnil]
      rfl
    · exact .inl hkind
    · exact .inr (.inl hbeside)
  · intro hne hkind htext
    obtain ⟨rest, hline, hstarts⟩ := hrest hne hkind htext
    obtain ⟨hspaces, hlt⟩ := Text.Utf8.lt_length_encode hline hstarts.nonempty
    exact ⟨by simp only [Diagnostic.ofToken]; omega, hspaces⟩
  · intro hne hkind htext
    obtain ⟨rest, hline, hstarts⟩ := hrest hne hkind htext
    refine ⟨_, rest, hstarts, Diagnostic.render_eq ht' ?_⟩
    rw [Diagnostic.pad, ← String.ofList_append]
    exact String.toList_injective (by simpa [Diagnostic.ofToken] using hline)

end ReadFile

namespace Origin

variable {w : Workspace} {width : UInt64} {searchPaths : List String} {origin : Origin}

/-- The files that reading from an origin opens, that of the origin first. -/
def files (w : Workspace) (width : UInt64) (searchPaths : List String) : Origin → List ReadFile
  | text fileName source =>
    .outline fileName source :: Stream.openings w width
      { sources := { searchPaths }, opened := [Outline.tokens width fileName source] }
  | file name =>
    match Sources.load { searchPaths } w name with
    | (_, .error _) => []
    | (sources, .ok f) =>
      .outline f.name f.contents :: Stream.openings w width
        { sources, opened := [Outline.tokens width f.name f.contents] }

/-- A reading draws from the files of its origin. -/
theorem drawn_of_stream {s : Stream} (h : origin.stream w width searchPaths = .ok s) :
    Ledger.Drawn w width (origin.files w width searchPaths) { reading := { stream := s } } := by
  have hone {sources : Sources} {fileName source : String} {files : List ReadFile}
      (hfiles : files = .outline fileName source :: Stream.openings w width
        { sources, opened := [Outline.tokens width fileName source] }) :
      Ledger.Drawn w width files { reading :=
        { stream := { sources, opened := [Outline.tokens width fileName source] } } } := by
    rw [hfiles]
    refine ⟨fun t ht => (List.not_mem_nil ht).elim, fun ts hts => ?_, List.subset_cons_self ..⟩
    rw [List.mem_singleton.mp hts]
    exact ⟨_, List.mem_cons_self, List.Subset.refl _⟩
  cases origin with
  | text fileName source =>
    cases h
    exact hone rfl
  | file name =>
    simp only [stream] at h
    split at h
    · cases h
    · next hload =>
      cases h
      exact hone (by simp only [files, hload])

/-- Where reading cannot start, the problem is with the file as a whole. -/
theorem line_of_stream {problems : List Diagnostic}
    (h : origin.stream w width searchPaths = .error problems) : ∀ d ∈ problems, d.line = 0 := by
  intro d hd
  cases origin with
  | text fileName source => cases h
  | file name =>
    simp only [stream] at h
    split at h
    · cases h
      rw [List.mem_singleton.mp hd]
      rfl
    · cases h

/-- Reported positions are true. Take any problem with a place that reading ends with, and the
ledger that is kept along the reading. The problem stands at a token there; every token it stands at
is one of a file that was opened, and the problem says truly where that file has it. -/
theorem reported_positions {options : ReadOptions} {problems : List Diagnostic}
    (h : origin.read w options = .error problems) :
    ∀ d ∈ problems, 0 < d.line →
      ∃ s rounds l, origin.stream w options.width options.searchPaths = .ok s ∧
        Ledger.after w options.width rounds { reading := { stream := s } } =
          (l, some (.error problems)) ∧
        (∃ t, l.ReportedAt w options.width d t) ∧
        ∀ t, l.ReportedAt w options.width d t → d = .ofToken d.message t ∧
          ∃ f ∈ origin.files w options.width options.searchPaths,
            t ∈ f.tokens options.width ∧ d.PlacedIn f t := by
  intro d hd hline
  have hparse : origin.parse w options.width options.searchPaths = .error problems := by
    rw [read_eq] at h
    generalize origin.parse w options.width options.searchPaths = result at h
    cases result with
    | error found => exact h
    | ok document => cases h
  cases hstream : origin.stream w options.width options.searchPaths with
  | error found =>
    rw [parse_eq, hstream] at hparse
    cases hparse
    exact absurd hline (by rw [line_of_stream hstream d hd]; decide)
  | ok s =>
    obtain ⟨hmarked, hne⟩ := marked_of_stream hstream
    obtain ⟨rounds, hrounds⟩ := origin.exists_ended w options.width options.searchPaths
    rw [start, hstream, hparse] at hrounds
    obtain ⟨l, hafter⟩ : ∃ l, Ledger.after w options.width rounds { reading := { stream := s } } =
        (l, some (.error problems)) := ⟨_, Prod.ext rfl (Ledger.after_snd.mpr hrounds)⟩
    obtain ⟨hbalanced, hresult⟩ := Ledger.balanced_of_after (.start hmarked hne) hafter
    obtain ⟨htaken, hsuffix⟩ := (drawn_of_stream hstream).after hafter
    refine ⟨s, rounds, l, rfl, hafter,
      Ledger.exists_reportedAt hbalanced hsuffix hresult hd, fun t ht => ?_⟩
    obtain ⟨hplaced, hmem⟩ := ht.ofToken hbalanced hsuffix
    obtain ⟨f, hf, htokens⟩ := htaken t hmem
    refine ⟨hplaced, f, hf, htokens, ?_⟩
    rw [hplaced] at hline ⊢
    exact ReadFile.placedIn_of_mem_tokens htokens hline d.message

end Origin

/-! ### Files around one another -/

/-- The problems of a reading that is over. -/
def Round.problems? : Round → Option (List Diagnostic)
  | .ended (.error problems) => some problems
  | _ => none

/-- A round that gives problems has ended with them. -/
theorem Round.ended_of_problems? {x : Round} {problems : List Diagnostic}
    (h : x.problems? = some problems) : x = .ended (.error problems) := by
  rcases x with r | found | d
  · cases h
  · cases h
    rfl
  · cases h

/-- An outline that includes another one, with a line that has no level and a file embedded outside
of all sections; behind the include a context ends where it should begin. -/
def strayWorkspace : Workspace where
  tree.entries :=
    [(["main.m6r"], .file (Text.Utf8.encode "Role:\n    r\nInclude: part.m6r\nContext:\n")),
      (["part.m6r"], .file (Text.Utf8.encode "\n  x\nEmbed: note.txt\n")),
      (["note.txt"], .file (Text.Utf8.encode "n\n\n"))]

/-- Seven problems in three files: the line without a level, the five lines that the embedded file
is shown with, and the end of the outline. -/
theorem reported_positions_stray :
    ∃ problems, Origin.read strayWorkspace {} (.file "main.m6r") = .error problems ∧
      problems.map (fun d => (d.fileName, d.line, d.column, d.sourceLine)) =
        [("part.m6r", 2, 3, "  x"), ("note.txt", 1, 1, ""), ("note.txt", 1, 1, ""),
          ("note.txt", 1, 1, "n"), ("note.txt", 2, 1, ""), ("note.txt", 3, 1, ""),
          ("main.m6r", 5, 1, "")] ∧
      ∀ d ∈ problems, ∃ t, d = .ofToken d.message t ∧
        ∃ f ∈ (Origin.file "main.m6r").files strayWorkspace 4 [],
          t ∈ f.tokens 4 ∧ d.PlacedIn f t := by
  obtain ⟨x, hx⟩ : ∃ x, x = Round.after strayWorkspace 4 30
      (Origin.start strayWorkspace 4 [] (.file "main.m6r")) := ⟨_, rfl⟩
  obtain ⟨problems, hproblems, hplaces⟩ := Option.map_eq_some_iff.mp
    (show x.problems?.map (fun ds => ds.map fun d => (d.fileName, d.line, d.column, d.sourceLine)) =
        some [("part.m6r", 2, 3, "  x"), ("note.txt", 1, 1, ""), ("note.txt", 1, 1, ""),
          ("note.txt", 1, 1, "n"), ("note.txt", 2, 1, ""), ("note.txt", 3, 1, ""),
          ("main.m6r", 5, 1, "")] by rw [hx]; decide +kernel)
  have hread : Origin.read strayWorkspace {} (.file "main.m6r") = .error problems := by
    rw [Origin.read_eq]
    rw [Origin.parse_of_ended (hx.symm.trans (Round.ended_of_problems? hproblems))]
    rfl
  have hlines : ∀ d ∈ problems, 0 < d.line := by
    intro d hd
    have hmem := List.mem_map_of_mem (f := fun d => (d.fileName, d.line, d.column, d.sourceLine)) hd
    rw [hplaces] at hmem
    exact (show ∀ p ∈ _, 0 < p.2.1 by decide) _ hmem
  refine ⟨problems, hread, hplaces, fun d hd => ?_⟩
  obtain ⟨s, rounds, l, -, -, ⟨t, ht⟩, hplaced⟩ :=
    Origin.reported_positions hread d hd (hlines d hd)
  exact ⟨t, hplaced t ht⟩

end PromptOutline
