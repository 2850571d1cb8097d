import PromptOutline.Proofs.Accounts
import PromptOutline.Proofs.Moves
import PromptOutline.Proofs.Rounds

/-!
# Reports and tokens

While outlines are read, tokens are taken out of files one after the other, and each one has a
number: its place in that order. A ledger follows a reading round by round and puts down, under the
number of the token that was taken last, every problem that was noted and every node that was added
in a round. The mark of the last file has one number, however often it is handed out.

Along every reading the numbers of the reports go up, each report stands at its token, each mark for
a bad layout has its report, and a node below a section comes from a token without one.
-/

namespace PromptOutline

/-! ### The tokens of a step -/

namespace Stream

/-- Every open file ends with the mark for its end. -/
def Marked (s : Stream) : Prop := ∀ ts ∈ s.opened, ∃ e ∈ ts.getLast?, e.kind = .endOfFile

private theorem marked_outline (width : UInt64) (fileName source : String) :
    ∃ e ∈ (Outline.tokens width fileName source).getLast?, e.kind = .endOfFile := by
  rw [Outline.tokens_eq_content, List.getLast?_append]
  exact ⟨_, rfl, rfl⟩

private theorem marked_embedding (fileName source : String) :
    ∃ e ∈ (Embedding.tokens fileName source).getLast?, e.kind = .endOfFile := by
  refine ⟨Token.endOfFile fileName ((Text.lines source.toList).length + 1), ?_, rfl⟩
  simp [Embedding.tokens, List.getLast?_cons]

private theorem marked_rest {t : Token} {rest : List Token} (ht : t.kind ≠ .endOfFile)
    (h : ∃ e ∈ (t :: rest).getLast?, e.kind = .endOfFile) :
    ∃ e ∈ rest.getLast?, e.kind = .endOfFile := by
  cases rest with
  | nil =>
    obtain ⟨e, he, hkind⟩ := h
    rw [List.getLast?_singleton, Option.mem_some_iff] at he
    exact absurd (he ▸ hkind) ht
  | cons u rest => rwa [List.getLast?_cons_cons] at h

/-- `Gives u es`: the events `es` are about the token `u` alone. -/
inductive Gives (u : Token) : List Event → Prop where
  | nothing (hkind : Outline.isBadMark u.kind = false) : Gives u []
  | token : Gives u [.token u]
  | problem (message : String) : Gives u [.problem (.ofToken message u)]

/-- What holds of the tokens that a step takes: the last one is what its events are about, and no
other is a mark for a bad layout. All files have ended only when it is the mark of the last one. -/
structure Takes (s : Stream) (es : List Event) (s' : Stream) (before : List Token) (u : Token) :
    Prop where
  taking : s.taking = before ++ [u]
  plain : ∀ t ∈ before, Outline.isBadMark t.kind = false
  gives : Gives u es
  marked : s'.Marked
  ended : s'.opened = [] → es = [] ∧ s'.ending = u ∧ u.kind = .endOfFile

private theorem isBadMark_of_directive {k : TokenKind} (hk : k.isDirective = true) :
    Outline.isBadMark k = false := by
  cases k <;> first | rfl | cases hk

section

variable {w : Workspace} {width : UInt64} {s s' : Stream} {es : List Event}
  {outer : List (List Token)}

/-- A step that takes one token out of a file leaves the file marked. -/
theorem takes_one {t : Token} {rest : List Token} (h : s.Marked)
    (ho : s.opened = (t :: rest) :: outer) (ht : t.kind ≠ .endOfFile) (htaking : s.taking = [t])
    (hgives : Gives t es) (hopened : s'.opened = rest :: outer) : Takes s es s' [] t where
  taking := htaking
  plain := by simp
  gives := hgives
  marked ts hts := by
    rw [hopened] at hts
    rcases List.mem_cons.mp hts with rfl | hts
    · exact marked_rest ht (h _ (by simp [ho]))
    · exact h ts (by simp [ho, hts])
  ended hnil := by
    rw [hopened] at hnil
    cases hnil

/-- A step that takes a directive and the text behind it may open files in front of what is left. -/
theorem takes_two {t name : Token} {rest : List Token} (files : List (List Token))
    (h : s.Marked) (ho : s.opened = (t :: name :: rest) :: outer) (ht : t.kind.isDirective = true)
    (hname : name.kind = .keywordText) (htaking : s.taking = [t, name]) (hgives : Gives name es)
    (hfiles : ∀ ts ∈ files, ∃ e ∈ ts.getLast?, e.kind = .endOfFile)
    (hopened : s'.opened = files ++ rest :: outer) : Takes s es s' [t] name where
  taking := htaking
  plain u hu := by
    rw [List.mem_singleton.mp hu]
    exact isBadMark_of_directive ht
  gives := hgives
  marked ts hts := by
    have hdirective : t.kind ≠ .endOfFile := fun hk => by simp [hk, TokenKind.isDirective] at ht
    rw [hopened] at hts
    rcases List.mem_append.mp hts with hts | hts
    · exact hfiles ts hts
    rcases List.mem_cons.mp hts with rfl | hts
    · have hnamed : name.kind ≠ .endOfFile := by simp [hname]
      exact marked_rest hnamed (marked_rest hdirective (h (t :: name :: ts) (by simp [ho])))
    · exact h ts (by simp [ho, hts])
  ended hnil := by
    rw [hopened] at hnil
    exact absurd hnil (by simp)

private theorem takes_of_step (h : s.Marked) (hstep : s.step w width = .next es s') :
    ∃ before u, Takes s es s' before u := by
  have hmove := move_step w width s
  generalize htaking : s.taking = taken at hmove
  rw [hstep] at hmove
  have hembed {t : Token} (ht : t.kind = .embedFiles) : t.kind.isDirective = true := by
    rw [ht]; rfl
  cases hmove with
  | dropped ho =>
    obtain ⟨e, he, -⟩ := h [] (by simp [ho])
    cases he
  | @ended t rest outer ho ht =>
    exact ⟨[], t, htaking, by simp, .nothing (by rw [ht]; rfl),
      fun ts hts => h ts (by simp [ho, show ts ∈ outer from hts]), fun _ => ⟨rfl, rfl, ht⟩⟩
  | @given t rest outer ho ht =>
    have hend : t.kind ≠ .endOfFile := fun hk => by simp [hk, isInner] at ht
    exact ⟨[], t, takes_one h ho hend htaking .token rfl⟩
  | @bare t rest outer ho ht hrest =>
    have hend : t.kind ≠ .endOfFile := fun hk => by simp [hk, TokenKind.isDirective] at ht
    exact ⟨[], t, takes_one h ho hend htaking (.problem _) rfl⟩
  | @included t name rest outer sources f ho ht hname hload =>
    exact ⟨[t], name,
      takes_two [Outline.tokens width f.name f.contents] h ho (by rw [ht]; rfl) hname
      htaking (.nothing (by rw [hname]; rfl)) (by simpa using marked_outline _ _ _) rfl⟩
  | @embedded t pattern rest outer paths files ho ht hpattern hexpand hne hfiles =>
    refine ⟨[t], pattern, takes_two _ h ho (hembed ht) hpattern htaking
      (.nothing (by rw [hpattern]; rfl)) (fun ts hts => ?_) rfl⟩
    obtain ⟨f, -, rfl⟩ := List.mem_map.mp hts
    exact marked_embedding f.name f.contents
  | @unmatched t pattern rest outer ho ht hpattern hexpand =>
    exact ⟨[t], pattern, takes_two [] h ho (hembed ht) hpattern htaking (.problem _) (by simp) rfl⟩
  | @misspelt t pattern rest outer fault ho ht hpattern hexpand =>
    exact ⟨[t], pattern, takes_two [] h ho (hembed ht) hpattern htaking (.problem _) (by simp) rfl⟩

private theorem opened_of_finished (h : s.step w width = .finished) : s.opened = [] := by
  have hmove := move_step w width s
  rw [h] at hmove
  generalize s.taking = taken at hmove
  cases hmove with
  | finished ho => exact ho

/-- A step that fails takes a directive and the text behind it. -/
theorem plain_of_failed {d : Diagnostic} (h : s.step w width = .failed d) :
    ∀ t ∈ s.taking, Outline.isBadMark t.kind = false := by
  have hmove := move_step w width s
  rw [h] at hmove
  generalize s.taking = taken at hmove
  cases hmove with
  | notIncluded ho ht hname hload => simp [ht, hname, Outline.isBadMark]
  | notEmbedded ho ht hpattern hexpand hne hfiles => simp [ht, hpattern, Outline.isBadMark]

end

end Stream

/-! ### Ledgers -/

/-- A reading with what was put down along it. -/
structure Ledger where
  reading : Reading
  /-- The tokens taken out of files so far. A token has its place here as its number. -/
  taken : List Token := []
  /-- The problems noted so far, each under the number of a token. -/
  reports : List (Nat × Diagnostic) := []
  /-- For each node the number of the token it was added for. -/
  origins : List Nat := []

namespace Ledger

/-- Go on with the reading that a round leads to: what it noted and what it added is put down under
the number of the token taken last. -/
def goOn (l : Ledger) (r : Reading) : Ledger :=
  let taken := l.taken ++ l.reading.stream.taking
  { reading := r
    taken
    reports := l.reports ++ (r.builder.problems.drop l.reading.builder.problems.length).map
      fun d => (taken.length - 1, d)
    origins := l.origins ++ List.replicate
      (r.builder.document.size - l.reading.builder.document.size) (taken.length - 1) }

/-- Going on with a reading is reading on from there. -/
@[simp] theorem goOn_reading (l : Ledger) (r : Reading) : (l.goOn r).reading = r := rfl

/-- As many rounds, or fewer if reading is over before; also the result, once it is over. -/
def after (w : Workspace) (width : UInt64) :
    Nat → Ledger → Ledger × Option (Except (List Diagnostic) Document)
  | 0, l => (l, none)
  | n + 1, l =>
    match l.reading.round w width with
    | .next r => after w width n (l.goOn r)
    | .ended result => ({ l with taken := l.taken ++ l.reading.stream.taking }, some result)

/-- The reports of a ledger are the problems of its builder, numbers and nodes are as in an account,
and every mark for a bad layout has its report. -/
structure Balanced (l : Ledger) : Prop where
  builder : l.reading.builder.Sound
  account : Account l.taken l.reports l.origins l.reading.builder.document
  noted : l.reports.map Prod.snd = l.reading.builder.problems
  marks : ∀ n t, l.taken[n]? = some t → Outline.isBadMark t.kind = true → ∃ d, (n, d) ∈ l.reports

/-- All files have ended: the token taken last is the mark that is handed out again. No node was
added for it, and it has a report only if every block that is still open has a body. -/
def AtEnd (l : Ledger) : Prop :=
  ∃ n, l.taken.length = n + 1 ∧ l.taken[n]? = some l.reading.stream.ending ∧
    l.reading.stream.ending.kind = .endOfFile ∧ n ∉ l.origins ∧
    ((∀ d, (n, d) ∉ l.reports) ∨
      ∀ f ∈ l.reading.builder.frames, ∃ nested, f.phase = .body nested)

/-- What holds of a ledger while reading goes on. -/
structure Sound (l : Ledger) : Prop extends Balanced l where
  settled : Builder.Settled l.reading.builder.frames
  files : l.reading.stream.Marked
  ending : l.reading.stream.opened = [] → l.AtEnd

namespace Sound

variable {l : Ledger} {r : Reading}

/-- The ledger of a reading that has not begun is sound. -/
theorem start {stream : Stream} (hmarked : stream.Marked) (hne : stream.opened ≠ []) :
    Sound { reading := { stream } } where
  builder := .empty
  settled f hf := by cases hf
  account := .empty
  noted := rfl
  marks n t h := by cases h
  files := hmarked
  ending h := absurd h hne

/-- A round whose step takes tokens. -/
theorem next (h : l.Sound) {before : List Token} {u : Token} {es : List Event}
    (htakes : l.reading.stream.Takes es r.stream before u)
    (hbuilder : r.builder = es.foldl Builder.event l.reading.builder) : (l.goOn r).Sound := by
  -- the number of the last token is new
  obtain ⟨n, hn⟩ : ∃ n, n = (l.taken ++ before).length := ⟨_, rfl⟩
  have htaken : (l.goOn r).taken = (l.taken ++ before) ++ [u] := by
    simp [goOn, htakes.taking]
  have hnumber : (l.taken ++ l.reading.stream.taking).length - 1 = n := by
    simp [htakes.taking, hn]
  have hu : (l.goOn r).taken[n]? = some u := by rw [htaken, hn]; simp
  have hle : l.taken.length ≤ n := by simp [hn]
  have hnew (p : Nat × Diagnostic) (hp : p ∈ l.reports) : p.1 < n :=
    Nat.lt_of_lt_of_le (h.account.lt_of_report hp) hle
  have hfresh : n ∉ l.origins := fun hm =>
    Nat.not_lt.mpr hle (h.account.lt_of_origin hm)
  have hunreported (d : Diagnostic) : (n, d) ∉ l.reports := fun hm =>
    Nat.lt_irrefl n (hnew _ hm)
  have haccount := h.account.more (before ++ [u])
  rw [← List.append_assoc, ← htaken] at haccount
  have hsound : r.builder.Sound := hbuilder ▸ h.builder.foldl_event es
  have hsettled : Builder.Settled r.builder.frames :=
    hbuilder ▸ Builder.settled_foldl_event es h.settled
  have hhandled : Builder.Handled u l.reading.builder r.builder := by
    rw [hbuilder]
    cases htakes.gives with
    | nothing hkind => exact .unchanged hkind rfl rfl
    | token => exact Builder.handled_take h.builder u
    | problem message => exact .noted message rfl rfl
  have hmarks (hlast : Outline.isBadMark u.kind = true → ∃ d, (n, d) ∈ (l.goOn r).reports)
      (k : Nat) (t : Token) (hk : (l.goOn r).taken[k]? = some t)
      (hbad : Outline.isBadMark t.kind = true) : ∃ d, (k, d) ∈ (l.goOn r).reports := by
    rw [htaken] at hk
    rcases Nat.lt_trichotomy k n with hlt | rfl | hgt
    · rw [List.getElem?_append_left (hn ▸ hlt)] at hk
      by_cases hold : k < l.taken.length
      · rw [List.getElem?_append_left hold] at hk
        obtain ⟨d, hd⟩ := h.marks k t hk hbad
        exact ⟨d, List.mem_append_left _ hd⟩
      · rw [List.getElem?_append_right (Nat.le_of_not_lt hold)] at hk
        rw [htakes.plain t (List.mem_of_getElem? hk)] at hbad
        cases hbad
    · rw [← htaken, hu] at hk
      cases hk
      exact hlast hbad
    · have hlength := (List.getElem?_eq_some_iff.mp hk).1
      rw [List.length_append, ← hn] at hlength
      exact absurd hgt (Nat.not_lt.mpr (Nat.le_of_lt_succ hlength))
  have hending (hnil : r.stream.opened = []) : (l.goOn r).AtEnd := by
    obtain ⟨rfl, hlast, hkind⟩ := htakes.ended hnil
    have hsame : r.builder = l.reading.builder := hbuilder
    refine ⟨n, by rw [htaken, hn, List.length_append]; rfl, by rw [hu, goOn_reading, hlast],
      by rw [goOn_reading, hlast, hkind], ?_, .inl fun d => ?_⟩
    · simpa [goOn, hsame] using hfresh
    · simpa [goOn, hsame] using hunreported d
  cases hhandled with
  | passed hkind hextends hproblems hheld =>
    have hreports : (l.goOn r).reports = l.reports := by simp [goOn, hproblems]
    have hpassed := haccount.passed hu hunreported hextends hheld
    rw [← hnumber, ← hreports] at hpassed
    refine ⟨⟨hsound, hpassed, ?_, hmarks fun hbad => ?_⟩, hsettled, htakes.marked, hending⟩
    · rw [hreports, h.noted]
      exact hproblems.symm
    · rw [hkind] at hbad
      cases hbad
  | reported message hextends hproblems hheld =>
    have hreports : (l.goOn r).reports = l.reports ++ [(n, .ofToken message u)] := by
      simp only [goOn, hproblems, List.drop_left, hnumber, List.map_cons, List.map_nil]
    have hreported := haccount.reported h.builder.linked hu hnew hfresh hextends hheld message
    rw [← hreports, ← hnumber] at hreported
    refine ⟨⟨hsound, hreported, ?_, hmarks fun _ => ?_⟩, hsettled, htakes.marked, hending⟩
    · rw [hreports, List.map_append, h.noted]
      exact hproblems.symm
    · exact ⟨_, hreports ▸ List.mem_append_right _ (List.mem_singleton_self _)⟩

/-- A round in which the mark of the last file is handed out again. -/
theorem again (h : l.Sound) (hopened : l.reading.stream.opened = [])
    (hstream : r.stream = l.reading.stream)
    (hbuilder : r.builder = l.reading.builder.take l.reading.stream.ending) :
    (l.goOn r).Sound := by
  obtain ⟨n, hlength, hn, hkind, hfresh, hcase⟩ := h.ending hopened
  have htaking : l.reading.stream.taking = [] := by simp [Stream.taking, hopened]
  have htaken : (l.goOn r).taken = l.taken := by simp [goOn, htaking]
  have hnumber : (l.taken ++ l.reading.stream.taking).length - 1 = n := by simp [htaking, hlength]
  have hdocument : r.builder.document = l.reading.builder.document :=
    hbuilder ▸ Builder.document_take_of_closes (by simp [hkind, Builder.closes]) _
  have horigins : (l.goOn r).origins = l.origins := by simp [goOn, hdocument]
  have hsound : r.builder.Sound := hbuilder ▸ h.builder.event (.token l.reading.stream.ending)
  have hsettled : Builder.Settled r.builder.frames := hbuilder ▸ Builder.settled_take h.settled _
  have hending : (l.goOn r).AtEnd := by
    refine ⟨n, by rw [htaken, hlength], by rw [htaken, goOn_reading, hstream, hn],
      by rw [goOn_reading, hstream, hkind], by rwa [horigins], .inr fun f hf => h.settled f ?_⟩
    rwa [goOn_reading, hbuilder, Builder.frames_take_ending hkind] at hf
  have hhandled := Builder.handled_take h.builder l.reading.stream.ending
  rw [← hbuilder] at hhandled
  cases hhandled with
  | passed hbad hextends hproblems hheld =>
    have hreports : (l.goOn r).reports = l.reports := by simp [goOn, hproblems]
    refine ⟨⟨hsound, ?_, ?_, ?_⟩, hsettled, hstream ▸ h.files, fun _ => hending⟩
    · rw [htaken, hreports, horigins]
      exact hdocument ▸ h.account
    · rw [hreports, h.noted]
      exact hproblems.symm
    · rw [htaken, hreports]
      exact h.marks
  | reported message hextends hproblems hheld =>
    have hreports : (l.goOn r).reports =
        l.reports ++ [(n, .ofToken message l.reading.stream.ending)] := by
      simp only [goOn, hproblems, List.drop_left, hnumber, List.map_cons, List.map_nil]
    -- a second report would need a block without a body
    have hunreported : ∀ d, (n, d) ∉ l.reports := by
      refine hcase.resolve_right fun hbodies => ?_
      have hsame : r.builder.problems = l.reading.builder.problems := by
        rw [hbuilder]
        cases hframes : l.reading.builder.frames with
        | nil => exact Builder.problems_take_ending_top hkind hframes
        | cons f outer =>
          obtain ⟨nested, hphase⟩ := hbodies f (by simp [hframes])
          exact Builder.problems_take_ending_body hkind hframes hphase
      rw [hsame] at hproblems
      simpa using congrArg List.length hproblems
    have hnew (p : Nat × Diagnostic) (hp : p ∈ l.reports) : p.1 < n := by
      have hlt := h.account.lt_of_report hp
      rw [hlength] at hlt
      refine Nat.lt_of_le_of_ne (Nat.le_of_lt_succ hlt) fun he => hunreported p.2 ?_
      rwa [← he]
    have hreported := h.account.reported h.builder.linked hn hnew hfresh hextends hheld message
    refine ⟨⟨hsound, ?_, ?_, ?_⟩, hsettled, hstream ▸ h.files, fun _ => hending⟩
    · rw [hdocument, Nat.sub_self, List.replicate_zero, List.append_nil] at hreported
      rw [htaken, hreports, horigins]
      exact hdocument ▸ hreported
    · rw [hreports, List.map_append, h.noted]
      exact hproblems.symm
    · intro k t hk hbad
      obtain ⟨d, hd⟩ := h.marks k t (htaken ▸ hk) hbad
      exact ⟨d, hreports ▸ List.mem_append_left _ hd⟩

/-- What a round leads to is sound. -/
theorem round {w : Workspace} {width : UInt64} (h : l.Sound)
    (hround : l.reading.round w width = .next r) : (l.goOn r).Sound := by
  unfold Reading.round at hround
  split at hround
  · cases hround
  · next hstep =>
    cases hround
    obtain ⟨before, u, htakes⟩ := Stream.takes_of_step h.files hstep
    exact h.next htakes rfl
  · next hstep =>
    split at hround
    · cases hround
    · cases hround
      exact h.again (Stream.opened_of_finished hstep) rfl rfl

/-- When reading is over, the tokens of a step that failed still count. -/
theorem closed {w : Workspace} {width : UInt64} {result : Except (List Diagnostic) Document}
    (h : l.Sound) (hround : l.reading.round w width = .ended result) :
    Balanced { l with taken := l.taken ++ l.reading.stream.taking } ∧
      (l.reading.stream.step w width = .finished ∧ result = l.reading.builder.result ∨
        ∃ d, l.reading.stream.step w width = .failed d ∧
          result = .error (l.reading.builder.problems ++ [d])) := by
  have hbalanced (hplain : ∀ t ∈ l.reading.stream.taking, Outline.isBadMark t.kind = false) :
      Balanced { l with taken := l.taken ++ l.reading.stream.taking } := by
    refine ⟨h.builder, h.account.more _, h.noted, fun k t hk hbad => ?_⟩
    by_cases hold : k < l.taken.length
    · exact h.marks k t ((List.getElem?_append_left hold).symm.trans hk) hbad
    · rw [List.getElem?_append_right (Nat.le_of_not_lt hold)] at hk
      rw [hplain t (List.mem_of_getElem? hk)] at hbad
      cases hbad
  unfold Reading.round at hround
  split at hround
  · next d hstep =>
    cases hround
    refine ⟨hbalanced (Stream.plain_of_failed hstep), .inr ⟨d, hstep, ?_⟩⟩
    simp [Builder.result, Builder.note]
  · cases hround
  · next hstep =>
    have hopened := Stream.opened_of_finished hstep
    split at hround
    · next hframes =>
      cases hround
      obtain ⟨-, -, -, hkind, -⟩ := h.ending hopened
      refine ⟨hbalanced (by simp [Stream.taking, hopened]), .inl ⟨hstep, ?_⟩⟩
      exact Builder.result_congr
        (Builder.document_take_of_closes (by simp [hkind, Builder.closes]) _)
        (Builder.problems_take_ending_top hkind hframes)
    · cases hround

end Sound

section

variable {w : Workspace} {width : UInt64} {n : Nat} {l l' : Ledger}
  {result : Except (List Diagnostic) Document}

/-- A ledger is kept for as many rounds as there are. -/
theorem after_snd : (after w width n l).2 = some result ↔
    Round.after w width n (.next l.reading) = .ended result := by
  induction n generalizing l with
  | zero => simp [after, Round.after]
  | succ n ih =>
    rw [after, Round.after]
    cases hround : l.reading.round w width with
    | next r => exact ih (l := l.goOn r)
    | ended result' =>
      cases n <;> simp [Round.after]

/-- The ledger of a reading that is over is balanced. -/
theorem balanced_of_after (h : l.Sound) (hafter : after w width n l = (l', some result)) :
    l'.Balanced ∧ (l'.reading.stream.step w width = .finished ∧
        result = l'.reading.builder.result ∨
      ∃ d, l'.reading.stream.step w width = .failed d ∧
        result = .error (l'.reading.builder.problems ++ [d])) := by
  induction n generalizing l with
  | zero => cases hafter
  | succ n ih =>
    rw [after] at hafter
    cases hround : l.reading.round w width with
    | next r =>
      rw [hround] at hafter
      exact ih (h.round hround) hafter
    | ended result' =>
      rw [hround] at hafter
      cases hafter
      exact h.closed hround

end

end Ledger

/-! ### Readings from an origin -/

namespace Origin

variable {w : Workspace} {width : UInt64} {searchPaths : List String} {origin : Origin}

/-- Every outline of the stream that an origin starts with is marked at its end. -/
theorem marked_of_stream {s : Stream} (h : origin.stream w width searchPaths = .ok s) :
    s.Marked ∧ s.opened ≠ [] := by
  have hone {s : Sources} {fileName source : String} :
      Stream.Marked { sources := s, opened := [Outline.tokens width fileName source] } := by
    intro ts hts
    rw [List.mem_singleton.mp hts]
    exact Stream.marked_outline ..
  cases origin with
  | text fileName source =>
    cases h
    exact ⟨hone, by simp⟩
  | file name =>
    simp only [stream] at h
    split at h
    · cases h
    · cases h
      exact ⟨hone, by simp⟩

/-- The ledger of a reading is kept up to its end. Its reports are the problems that were noted, in
order, and they stand at tokens whose numbers go up. Every mark for a bad indent, a bad outdent or a
tab has one report. No report stands at a token that a node below a section was added for. -/
theorem reports_at_tokens {s : Stream} (h : origin.stream w width searchPaths = .ok s) :
    (∃ rounds, (Ledger.after w width rounds { reading := { stream := s } }).2 =
        some (origin.parse w width searchPaths)) ∧
      ∀ rounds l result,
        Ledger.after w width rounds { reading := { stream := s } } = (l, some result) →
      result = origin.parse w width searchPaths ∧
      (l.reading.stream.step w width = .finished ∧ result = l.reading.builder.result ∨
        ∃ d, l.reading.stream.step w width = .failed d ∧
          result = .error (l.reading.builder.problems ++ [d])) ∧
      l.reports.map Prod.snd = l.reading.builder.problems ∧
      (l.reports.map Prod.fst).Pairwise (· < ·) ∧
      (∀ r ∈ l.reports, ∃ t, l.taken[r.1]? = some t ∧ r.2 = .ofToken r.2.message t) ∧
      (∀ n t, l.taken[n]? = some t → t.kind ∈ [.badIndent, .badOutdent, .tab] →
        ∃! r, r ∈ l.reports ∧ r.1 = n) ∧
      ∀ root way i, l.reading.builder.document.follow? root way = some i →
        ∃ n t, l.origins[i]? = some n ∧ l.taken[n]? = some t ∧
          (l.reading.builder.document.node i).toContent = .ofToken t ∧
          ∀ r ∈ l.reports, r.1 ≠ n := by
  obtain ⟨hmarked, hne⟩ := marked_of_stream h
  have hstart : origin.start w width searchPaths = .next { stream := s } := by rw [start, h]
  constructor
  · obtain ⟨rounds, hrounds⟩ := origin.exists_ended w width searchPaths
    rw [hstart] at hrounds
    exact ⟨rounds, Ledger.after_snd.mpr hrounds⟩
  intro rounds l result hafter
  have hended := Ledger.after_snd.mp (congrArg Prod.snd hafter)
  obtain ⟨hbalanced, hresult⟩ := Ledger.balanced_of_after (.start hmarked hne) hafter
  have haccount := hbalanced.account
  refine ⟨(parse_of_ended (by rw [hstart]; exact hended)).symm, hresult, hbalanced.noted,
    haccount.ordered, haccount.placed, fun n t ht hkind => ?_, fun root way i hi => ?_⟩
  · have hbad : Outline.isBadMark t.kind = true := by
      simpa [Outline.isBadMark, or_assoc] using hkind
    obtain ⟨d, hd⟩ := hbalanced.marks n t ht hbad
    refine ⟨(n, d), ⟨hd, rfl⟩, ?_⟩
    rintro r ⟨hr, rfl⟩
    exact haccount.eq_of_number hr hd rfl
  · have hheld := Document.held_of_follow? hi
    have hlt := hbalanced.builder.linked.lt_size_of_held hheld
    obtain ⟨n, hn⟩ : ∃ n, l.origins[i]? = some n :=
      ⟨_, List.getElem?_eq_getElem (haccount.nodes ▸ hlt)⟩
    obtain ⟨t, ht, hcontent⟩ := haccount.added i n hn
    refine ⟨n, t, hn, ht, hcontent, ?_⟩
    rintro r hr rfl
    exact haccount.held i r.1 hheld hn r.2 hr

end Origin

/-! ### An outline with misfits -/

/-- An outline with a stray line, a role that comes twice, a tab, an include without a name, and a
context that ends where it should begin. -/
def misfitOutline : String :=
  "stray\nRole:\n    a\nRole:\n    b\n   \tc\nInclude:\nContext:\n"

/-- Of the fourteen tokens of that outline six are reported, each once: the mark for the end among
them, which is handed out twice. The second role is a node and has a report, but no section leads to
it; the context has none. -/
theorem reports_at_tokens_misfit :
    ∃ l result, Ledger.after {} 4 20
        { reading := { stream :=
          { sources := {}, opened := [Outline.tokens 4 "plan" misfitOutline] } } } =
          (l, some result) ∧
      result = (Origin.text "plan" misfitOutline).parse {} 4 [] ∧
      l.taken.length = 14 ∧ l.origins = [1, 3, 5, 7, 12] ∧
      l.reports.map Prod.fst = [0, 5, 8, 9, 11, 13] ∧
      l.reports.map Prod.snd = l.reading.builder.problems ∧
      (∃! r, r ∈ l.reports ∧ r.1 = 8) ∧ (∃! r, r ∈ l.reports ∧ r.1 = 9) ∧
      ∃ n t, l.origins[4]? = some n ∧ l.taken[n]? = some t ∧
        (l.reading.builder.document.node 4).toContent = .ofToken t ∧ ∀ r ∈ l.reports, r.1 ≠ n := by
  obtain ⟨x, hx⟩ : ∃ x, x = Ledger.after {} 4 20
      { reading := { stream :=
        { sources := {}, opened := [Outline.tokens 4 "plan" misfitOutline] } } } := ⟨_, rfl⟩
  obtain ⟨hsome, htaken, horigins, hnumbers, htab, hmark, hway⟩ :
      x.2.isSome = true ∧ x.1.taken.length = 14 ∧ x.1.origins = [1, 3, 5, 7, 12] ∧
        x.1.reports.map Prod.fst = [0, 5, 8, 9, 11, 13] ∧
        x.1.taken[8]?.map (·.kind) = some .tab ∧ x.1.taken[9]?.map (·.kind) = some .badOutdent ∧
        x.1.reading.builder.document.follow? .context [] = some 4 := by
    rw [hx]
    decide +kernel
  obtain ⟨result, hresult⟩ := Option.isSome_iff_exists.mp hsome
  obtain ⟨t, ht, htkind⟩ := Option.map_eq_some_iff.mp htab
  obtain ⟨u, hu, hukind⟩ := Option.map_eq_some_iff.mp hmark
  have hafter := hx.symm.trans (Prod.ext rfl hresult : x = (x.1, some result))
  have hstream : (Origin.text "plan" misfitOutline).stream {} 4 [] =
      .ok { sources := {}, opened := [Outline.tokens 4 "plan" misfitOutline] } := rfl
  obtain ⟨hparse, -, hnoted, -, -, honce, hnodes⟩ :=
    (Origin.reports_at_tokens hstream).2 20 x.1 result hafter
  exact ⟨x.1, result, hafter, hparse, htaken, horigins, hnumbers, hnoted,
    honce 8 t ht (by simp [htkind]), honce 9 u hu (by simp [hukind]), hnodes .context [] 4 hway⟩

end PromptOutline
