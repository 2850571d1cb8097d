import Mathlib.Data.Finset.Card
import PromptOutline.Proofs.Building

/-!
# Reading ends

Reading is a loop without a bound of its own: it asks the stream for the next event and hands it to
the builder; an include makes what is left to read longer; and once all files have ended, the mark
of the last one is handed out again and again, and each time it closes one open block. A round is
one turn of that loop. Every reading is over after finitely many rounds, with the result that
running the stream first and building afterwards has.

No location is recorded as used twice, and an outline is opened only when its location was recorded
for it. So no more outlines are opened than there are files, and one more if reading starts from a
text.
-/

namespace PromptOutline

/-! ### Regular files -/

namespace FileTree

/-- Whether a file stands at a location. -/
def isRegular (t : FileTree) (l : Location) : Bool :=
  match t.get? l with
  | some (.file _) => true
  | _ => false

/-- The locations at which files stand. -/
def regularFiles (t : FileTree) : Finset Location := (t.files.filter t.isRegular).toFinset

private theorem mem_regularFiles {t : FileTree} {l : Location} :
    l ∈ t.regularFiles ↔ ∃ bytes, t.get? l = some (.file bytes) := by
  simp only [regularFiles, List.mem_toFinset, List.mem_filter, isRegular]
  constructor
  · rintro ⟨_, h⟩
    split at h
    · next bytes hget => exact ⟨bytes, hget⟩
    · cases h
  · rintro ⟨bytes, hget⟩
    exact ⟨Stream.mem_files_of_get? hget, by rw [hget]⟩

end FileTree

/-! ### Rounds -/

/-- The outline that the next step of a stream opens. -/
def Stream.outline? (w : Workspace) (s : Stream) : Option SourceFile :=
  match s.opened with
  | (t :: name :: _) :: _ =>
    if t.kind = .includeFile ∧ name.kind = .keywordText then
      (s.sources.load w name.text).2.toOption
    else none
  | _ => none

/-- A reading under way. -/
structure Reading where
  stream : Stream
  builder : Builder := {}
  /-- The number of outlines opened so far. -/
  outlines : Nat := 1

/-- What a round leads to. -/
inductive Round where
  | next (r : Reading)
  | ended (result : Except (List Diagnostic) Document)

/-- One turn of the loop. When the files are at their end the mark of the last one is taken, and
reading is over if no block was open for it to close. -/
def Reading.round (w : Workspace) (width : UInt64) (r : Reading) : Round :=
  match r.stream.step w width with
  | .failed d => .ended (r.builder.note d).result
  | .next events s =>
    .next {
      stream := s,
      builder := events.foldl Builder.event r.builder,
      outlines := r.outlines + (r.stream.outline? w).toList.length }
  | .finished =>
    match r.builder.frames with
    | [] => .ended (r.builder.take r.stream.ending).result
    | _ :: _ => .next { r with builder := r.builder.take r.stream.ending }

/-- As many rounds, or fewer if reading is over before. -/
def Round.after (w : Workspace) (width : UInt64) : Nat → Round → Round
  | 0, x => x
  | _ + 1, .ended result => .ended result
  | n + 1, .next r => after w width n (r.round w width)

/-- The document of a reading that is over. -/
def Round.document? : Round → Option Document
  | .ended (.ok d) => some d
  | _ => none

/-- A round that gives a document has ended with it. -/
theorem Round.ended_of_document? {x : Round} {d : Document} (h : x.document? = some d) :
    x = .ended (.ok d) := by
  rcases x with r | problems | d'
  · cases h
  · cases h
  · cases h
    rfl

/-- What reading starts from: an outline given as text or one in a file. -/
inductive Origin where
  | text (fileName source : String)
  | file (name : String)

namespace Origin

/-- Read from an origin, one text node for each line. -/
def parse (w : Workspace) (width : UInt64) (searchPaths : List String) :
    Origin → Except (List Diagnostic) Document
  | text fileName source => Compile.parseText w width searchPaths fileName source
  | file name => Compile.parseFile w width searchPaths name

/-- The stream that reading from an origin starts with. -/
def stream (w : Workspace) (width : UInt64) (searchPaths : List String) :
    Origin → Except (List Diagnostic) Stream
  | text fileName source =>
    .ok { sources := { searchPaths }, opened := [Outline.tokens width fileName source] }
  | file name =>
    match Sources.load { searchPaths } w name with
    | (_, .error fault) => .error [.ofFile fault.message name]
    | (sources, .ok f) => .ok { sources, opened := [Outline.tokens width f.name f.contents] }

/-- The first round. -/
def start (w : Workspace) (width : UInt64) (searchPaths : List String) (origin : Origin) : Round :=
  match origin.stream w width searchPaths with
  | .error problems => .ended (.error problems)
  | .ok stream => .next { stream }

/-- The number of outlines that reading from an origin opens without recording a location. -/
def unrecorded : Origin → Nat
  | text _ _ => 1
  | file _ => 0

variable {w : Workspace} {width : UInt64} {searchPaths : List String} {origin : Origin}

/-- Reading takes everything that the first stream leads to. -/
theorem parse_eq (w : Workspace) (width : UInt64) (searchPaths : List String) (origin : Origin) :
    origin.parse w width searchPaths =
      (origin.stream w width searchPaths).bind (Compile.readStream w width) := by
  cases origin with
  | text fileName source => rfl
  | file name =>
    simp only [parse, stream, Compile.parseFile]
    rcases Sources.load { searchPaths } w name with ⟨sources, fault | f⟩ <;> rfl

/-- Before reading starts, no file but the one at hand was ended. -/
theorem kind_of_stream {s : Stream} (h : origin.stream w width searchPaths = .ok s) :
    s.ending.kind = .endOfFile := by
  cases origin with
  | text fileName source => cases h; rfl
  | file name =>
    simp only [stream] at h
    split at h
    · cases h
    · cases h; rfl

end Origin

/-! ### Rounds at the end of all files -/

namespace Builder

/-- The end of the input closes the innermost block. -/
theorem frames_take_ending {b : Builder} {ending : Token} (he : ending.kind = .endOfFile) :
    (b.take ending).frames = b.frames.tail := by
  unfold take
  split
  · next hf => simp [takeTop, he, Section.ofKind?, hf]
  · next f outer hf =>
    split
    · simp [he, missIndent, closes, hf]
    · simp [he, missIndent, closes, hf]
    · simp [takeBody, he, closes, hf]

/-- Inside the body of a block, the end of the input is no problem. -/
theorem problems_take_ending_body {b : Builder} {f : Frame} {outer : List Frame}
    {nested : Bool} {ending : Token} (he : ending.kind = .endOfFile) (hf : b.frames = f :: outer)
    (hphase : f.phase = .body nested) : (b.take ending).problems = b.problems := by
  simp [take, hf, hphase, takeBody, he, closes]

/-- Once the end of the input closed the innermost block, it closes the others without a report. -/
theorem problems_take_ending_again {b : Builder} {ending : Token} (he : ending.kind = .endOfFile)
    (hsettled : Settled b.frames) :
    ((b.take ending).take ending).problems = (b.take ending).problems := by
  have hframes := frames_take_ending (b := b) he
  cases htail : b.frames.tail with
  | nil => exact problems_take_ending_top he (by rw [hframes, htail])
  | cons f outer =>
    obtain ⟨nested, hphase⟩ := hsettled f (by simp [htail])
    exact problems_take_ending_body he (hframes.trans htail) hphase

/-- What a builder gives depends on its document and its problems. -/
theorem result_congr {b c : Builder} (hd : b.document = c.document)
    (hp : b.problems = c.problems) : b.result = c.result := by
  rw [result, result, hd, hp]

/-- Closing all blocks at once gives what closing one block and then the others gives. -/
theorem result_close_take {b : Builder} {ending : Token} (he : ending.kind = .endOfFile)
    (hsettled : Settled b.frames) :
    ((b.take ending).close ending).result = (b.close ending).result :=
  result_congr (document_take_of_closes (by simp [closes, he]) _)
    (problems_take_ending_again he hsettled)

/-- Taking events keeps the frames of a builder settled. -/
theorem settled_foldl_event (es : List Event) {b : Builder} (h : Settled b.frames) :
    Settled (es.foldl event b).frames := by
  induction es generalizing b with
  | nil => exact h
  | cons e es ih =>
    cases e with
    | token t => exact ih (settled_take h t)
    | problem d => exact ih (b := b.note d) h

/-- The result of taking the rest of a run. -/
def resume (b : Builder) (rest : List Event × Stream.Outcome) :
    Except (List Diagnostic) Document :=
  match rest.2 with
  | .finished ending => ((rest.1.foldl event b).close ending).result
  | .failed d => ((rest.1.foldl event b).note d).result

/-- A builder that resumes a run takes its first events, and then resumes the rest. -/
theorem resume_append (b : Builder) (es : List Event) (rest : List Event × Stream.Outcome) :
    b.resume (es ++ rest.1, rest.2) = (es.foldl event b).resume rest := by
  rw [resume, resume]
  simp only [List.foldl_append]

end Builder

namespace Reading

variable {w : Workspace} {width : UInt64}

/-- When all files are at their end, reading is over after one round for each open block and one
more. -/
theorem ended_of_finished {r : Reading} (hstep : r.stream.step w width = .finished)
    (he : r.stream.ending.kind = .endOfFile) (hsettled : Builder.Settled r.builder.frames) :
    ∃ n, Round.after w width n (.next r) = .ended (r.builder.close r.stream.ending).result := by
  obtain ⟨frames, hframes⟩ : ∃ frames, r.builder.frames = frames := ⟨_, rfl⟩
  induction frames generalizing r with
  | nil =>
    refine ⟨1, ?_⟩
    simp only [Round.after, round, hstep, hframes]
    exact congrArg Round.ended (Builder.result_congr rfl rfl)
  | cons f outer ih =>
    let closed : Reading := { r with builder := r.builder.take r.stream.ending }
    have hround : r.round w width = .next closed := by
      simp only [round, hstep, hframes]
      rfl
    obtain ⟨n, hn⟩ := ih (r := closed) hstep he (Builder.settled_take hsettled _)
      ((Builder.frames_take_ending he).trans (by rw [hframes]; rfl))
    refine ⟨n + 1, ?_⟩
    rw [Round.after, hround, hn]
    exact congrArg Round.ended (Builder.result_close_take he hsettled)

/-- A reading is over after finitely many rounds, with the result of taking the rest of the run of
its stream. -/
theorem ended_of_settled {r : Reading} (he : r.stream.ending.kind = .endOfFile)
    (hsettled : Builder.Settled r.builder.frames) :
    ∃ n, Round.after w width n (.next r) = .ended (r.builder.resume (r.stream.run w width)) := by
  obtain ⟨s, hs⟩ : ∃ s, r.stream = s := ⟨_, rfl⟩
  -- Along the run of the stream: every step goes down, so the run has an induction of its own.
  induction s using Stream.run_induction w width generalizing r with
  | finished s hstep =>
    subst hs
    rw [Stream.run_of_finished hstep]
    exact ended_of_finished hstep he hsettled
  | failed s d hstep =>
    subst hs
    rw [Stream.run_of_failed hstep]
    exact ⟨1, by simp only [Round.after, round, hstep, Builder.resume, List.foldl_nil]⟩
  | next s es s' hstep ih =>
    subst hs
    let taken : Reading :=
      { stream := s', builder := es.foldl Builder.event r.builder,
        outlines := r.outlines + (r.stream.outline? w).toList.length }
    have hround : r.round w width = .next taken := by simp only [round, hstep, taken]
    have he' : taken.stream.ending.kind = .endOfFile := by
      rcases (Stream.kinds_of_step hstep).2 with h | h
      · exact (congrArg Token.kind h).trans he
      · exact h
    obtain ⟨n, hn⟩ := ih he' (Builder.settled_foldl_event es hsettled) rfl
    refine ⟨n + 1, ?_⟩
    rw [Round.after, hround, hn, Stream.run_of_next hstep, Builder.resume_append]

end Reading

/-! ### Outlines opened -/

namespace Stream

variable {w : Workspace} {width : UInt64}

private theorem outline?_of_include {s : Stream} {t name : Token} {rest : List Token}
    {outer : List (List Token)} (ho : s.opened = (t :: name :: rest) :: outer)
    (ht : t.kind = .includeFile) (hname : name.kind = .keywordText) :
    s.outline? w = (s.sources.load w name.text).2.toOption := by
  simp [outline?, ho, ht, hname]

private theorem outline?_of_kind {s : Stream} {t : Token} {rest : List Token}
    {outer : List (List Token)} (ho : s.opened = (t :: rest) :: outer)
    (ht : t.kind ≠ .includeFile) : s.outline? w = none := by
  cases rest <;> simp [outline?, ho, ht]

private theorem sources_of_embedFiles {s s' : Stream} {pattern : Token} {rest : List Token}
    {outer : List (List Token)} {es : List Event}
    (h : embedFiles w s pattern rest outer = .next es s') : s'.sources = s.sources := by
  unfold embedFiles at h
  split at h
  · split at h
    · cases h
    · cases h; rfl
  · cases h; rfl
  · split at h
    · cases h
    · cases h; rfl

/-- A step either opens one outline, whose location it records, or leaves the record as it is. -/
theorem outline?_of_step {s s' : Stream} {es : List Event} (h : s.step w width = .next es s') :
    (∃ f name, s.outline? w = some f ∧ s.sources.load w name = (s'.sources, .ok f) ∧
        ∃ outer, s'.opened = Outline.tokens width f.name f.contents :: outer) ∨
      (s.outline? w = none ∧ s'.sources = s.sources) := by
  unfold step at h
  split at h
  · cases h
  · next ho => cases h; exact .inr ⟨by simp [outline?, ho], rfl⟩
  · next t rest outer ho =>
    split at h
    · next hk => cases h; exact .inr ⟨outline?_of_kind ho (by simp [hk]), rfl⟩
    · next hk =>
      split at h
      · next name rest' =>
        split at h
        · next hname =>
          have houtline := outline?_of_include (w := w) ho hk hname
          unfold includeFile at h
          split at h
          · cases h
          · next sources f hload =>
            cases h
            rw [hload] at houtline
            exact .inl ⟨f, name.text, houtline, hload, _, rfl⟩
        · next hname => cases h; exact .inr ⟨by simp [outline?, ho, hname], rfl⟩
      · cases h; exact .inr ⟨by simp [outline?, ho], rfl⟩
    · next hk =>
      have hnone : s.outline? w = none := outline?_of_kind ho (by simp [hk])
      split at h
      · split at h
        · exact .inr ⟨hnone, sources_of_embedFiles h⟩
        · cases h; exact .inr ⟨hnone, rfl⟩
      · cases h; exact .inr ⟨hnone, rfl⟩
    · next hk _ => cases h; exact .inr ⟨outline?_of_kind ho (by simpa using hk), rfl⟩

end Stream

/-- The recorded locations are those of files, each once. -/
structure Sources.Sound (w : Workspace) (s : Sources) : Prop where
  distinct : s.used.Nodup
  regular : ∀ l ∈ s.used, l ∈ w.tree.regularFiles

namespace Sources.Sound

variable {w : Workspace} {s s' : Sources}

private theorem empty (searchPaths : List String) : Sound w { searchPaths } :=
  ⟨List.nodup_nil, by simp⟩

private theorem load {name : String} {f : SourceFile} (hs : Sound w s)
    (h : s.load w name = (s', .ok f)) : Sound w s' := by
  obtain ⟨hused, hnew, hfile⟩ := Sources.load_eq_ok h
  constructor
  · rw [hused, List.nodup_append]
    refine ⟨hs.distinct, List.nodup_singleton _, ?_⟩
    rintro l hl _ hm rfl
    exact hnew (List.mem_singleton.mp hm ▸ hl)
  · intro l hl
    rw [hused, List.mem_append, List.mem_singleton] at hl
    rcases hl with hl | rfl
    · exact hs.regular l hl
    · exact FileTree.mem_regularFiles.mpr hfile

private theorem length_le (hs : Sound w s) : s.used.length ≤ w.tree.regularFiles.card := by
  rw [← List.toFinset_card_of_nodup hs.distinct]
  exact Finset.card_le_card fun l hl => hs.regular l (List.mem_toFinset.mp hl)

end Sources.Sound

namespace Reading

variable {w : Workspace} {width : UInt64}

/-- Every outline opened so far, but for `extra` ones, is recorded. -/
structure Counted (w : Workspace) (extra : Nat) (r : Reading) : Prop where
  sound : r.stream.sources.Sound w
  outlines : r.outlines = r.stream.sources.used.length + extra

private theorem Counted.round {extra : Nat} {r r' : Reading} (hr : Counted w extra r)
    (h : r.round w width = .next r') : Counted w extra r' := by
  unfold Reading.round at h
  split at h
  · cases h
  · next es s hstep =>
    cases h
    rcases Stream.outline?_of_step hstep with ⟨f, name, hsome, hload, -⟩ | ⟨hnone, hsources⟩
    · refine ⟨hr.sound.load hload, ?_⟩
      have hused := (Sources.load_eq_ok hload).1
      simp only [hsome, hused, hr.outlines, Option.toList_some, List.length_append,
        List.length_singleton]
      omega
    · refine ⟨?_, ?_⟩
      · simp only [hsources]
        exact hr.sound
      · simp [hnone, hsources, hr.outlines]
  · split at h
    · cases h
    · cases h
      exact ⟨hr.sound, hr.outlines⟩

private theorem Counted.after {extra : Nat} {r r' : Reading} (hr : Counted w extra r) {n : Nat}
    (h : Round.after w width n (.next r) = .next r') : Counted w extra r' := by
  induction n generalizing r with
  | zero => cases h; exact hr
  | succ n ih =>
    rw [Round.after] at h
    cases hround : r.round w width with
    | ended result =>
      rw [hround] at h
      cases n <;> cases h
    | next r₁ =>
      rw [hround] at h
      exact ih (hr.round hround) h

private theorem counted_of_stream {searchPaths : List String} {origin : Origin} {s : Stream}
    (h : origin.stream w width searchPaths = .ok s) :
    Counted w origin.unrecorded { stream := s } := by
  cases origin with
  | text fileName source =>
    cases h
    exact ⟨.empty searchPaths, rfl⟩
  | file name =>
    simp only [Origin.stream] at h
    split at h
    · cases h
    · next hload =>
      cases h
      refine ⟨(Sources.Sound.empty searchPaths).load hload, ?_⟩
      simp [(Sources.load_eq_ok hload).1, Origin.unrecorded]

end Reading

/-- From every origin, reading is over after finitely many rounds, with the result of reading. -/
theorem Origin.exists_ended (w : Workspace) (width : UInt64) (searchPaths : List String)
    (origin : Origin) :
    ∃ n, Round.after w width n (origin.start w width searchPaths) =
      .ended (origin.parse w width searchPaths) := by
  rw [start, parse_eq]
  cases hstream : origin.stream w width searchPaths with
  | error problems => exact ⟨0, rfl⟩
  | ok s =>
    have hclosed : Builder.Settled ({} : Builder).frames := fun f hf => by cases hf
    exact Reading.ended_of_settled (kind_of_stream hstream) hclosed

/-- What rounds end with is the result of reading. -/
theorem Origin.parse_of_ended {w : Workspace} {width : UInt64} {searchPaths : List String}
    {origin : Origin} {n : Nat} {result : Except (List Diagnostic) Document}
    (h : Round.after w width n (origin.start w width searchPaths) = .ended result) :
    origin.parse w width searchPaths = result := by
  have hunique (x : Round) {m n : Nat} {a b : Except (List Diagnostic) Document}
      (hm : Round.after w width m x = .ended a) (hn : Round.after w width n x = .ended b) :
      a = b := by
    induction m generalizing x n with
    | zero =>
      obtain rfl : x = .ended a := hm
      cases n <;> exact Round.ended.inj hn
    | succ m ih =>
      cases x with
      | ended result =>
        obtain rfl : result = a := Round.ended.inj hm
        cases n <;> exact Round.ended.inj hn
      | next r =>
        cases n with
        | zero => cases hn
        | succ n => exact ih _ hm hn
  obtain ⟨m, hm⟩ := origin.exists_ended w width searchPaths
  exact hunique _ hm h

/-- Reading ends on every file tree and from every origin, whatever its outlines include: after
finitely many rounds it is over, with the result of reading. Up to then no more outlines are opened
than there are regular files, and one more for an outline given as text. -/
theorem Compile.reading_ends (w : Workspace) (width : UInt64) (searchPaths : List String)
    (origin : Origin) :
    (∃ n, Round.after w width n (origin.start w width searchPaths) =
        .ended (origin.parse w width searchPaths)) ∧
      ∀ n r, Round.after w width n (origin.start w width searchPaths) = .next r →
        r.outlines ≤ w.tree.regularFiles.card + origin.unrecorded := by
  refine ⟨origin.exists_ended w width searchPaths, ?_⟩
  intro n r h
  rw [Origin.start] at h
  cases hstream : origin.stream w width searchPaths with
  | error problems =>
    rw [hstream] at h
    cases n <;> cases h
  | ok s =>
    rw [hstream] at h
    have hr := (Reading.counted_of_stream hstream).after h
    rw [hr.outlines]
    exact Nat.add_le_add_right hr.sound.length_le _

end PromptOutline
