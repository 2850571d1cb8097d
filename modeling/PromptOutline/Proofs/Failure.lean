import PromptOutline.Proofs.Replays

/-!
# What a failure depends on

Reading stops at the first include that cannot be loaded, and at the first file that is to be
embedded and cannot be read. What it gives then is everything that was reported before, and the
failure behind it. Nothing that stands behind the directive in an open file has a part in that, and
no file that was not read.
-/

namespace PromptOutline

/-! ### Readings from an origin -/

namespace Origin

/-- The trail that reading from an origin starts with. -/
def trail (w : Workspace) (width : UInt64) (searchPaths : List String) :
    Origin → Except (List Diagnostic) Trail
  | text fileName source =>
    .ok {
      stream := { sources := { searchPaths }, opened := [Outline.tokens width fileName source] }
      files := [some { location := none }] }
  | file name =>
    match Sources.load { searchPaths } w name with
    | (_, .error fault) => .error [.ofFile fault.message name]
    | (sources, .ok f) =>
      .ok {
        stream := { sources, opened := [Outline.tokens width f.name f.contents] }
        files := [some { location := some f.location }] }

/-- The text of an outline: that of a file, or the one that reading starts from. -/
def textAt? (w : Workspace) (origin : Origin) : Option Location → Option String
  | some l => w.text? l
  | none =>
    match origin with
    | text _ source => some source
    | file _ => none

/-- Another workspace and origin that are the same as far as a reading came. Files hold other texts
only where none was read or embedded, or where an outline is open; and open outlines have the same
lines up to the one that is at hand. -/
structure SamePast (changed : List Location) (w : Workspace) (origin : Origin) (h : Trail)
    (w' : Workspace) (origin' : Origin) : Prop where
  same : w.SameBut changed w'
  unread : ∀ l ∈ changed, l ∉ h.embedded ∧ (some l ∈ Trail.locations h.current ∨
    l ∉ h.stream.sources.used ∧ h.stream.lookup? w ≠ some l)
  lines : ∀ f, some f ∈ h.current → ∃ source source', origin.textAt? w f.location = some source ∧
    origin'.textAt? w' f.location = some source' ∧
    (Text.lines source.toList).take f.line = (Text.lines source'.toList).take f.line
  origin : origin' = origin ∨ ∃ fileName source source', origin = .text fileName source ∧
    origin' = .text fileName source' ∧ none ∈ Trail.locations h.current

variable {w : Workspace} {width : UInt64} {searchPaths : List String} {origin : Origin}

private theorem parse_eq_trail (w : Workspace) (width : UInt64) (searchPaths : List String)
    (origin : Origin) :
    origin.parse w width searchPaths = (origin.trail w width searchPaths).bind fun h =>
      h.builder.resume (h.stream.run w width) := by
  cases origin with
  | text fileName source => rfl
  | file name =>
    simp only [parse, trail, Compile.parseFile]
    rcases Sources.load { searchPaths } w name with ⟨sources, fault | f⟩ <;> rfl

private theorem sound_of_trail {h : Trail} (htrail : origin.trail w width searchPaths = .ok h) :
    h.Sound := by
  have hwaits {location : Option Location} {fileName source : String} :
      List.Forall₂ Trail.Waits [some { location }] [Outline.tokens width fileName source] := by
    refine .cons (fun f hf => ?_) .nil
    cases hf
    exact ⟨Outline.ascending_tokens .., fun _ _ => Nat.zero_le _⟩
  cases origin with
  | text fileName source =>
    cases htrail
    refine ⟨hwaits, fun f l hf hl => ?_, List.nodup_singleton _⟩
    cases List.mem_singleton.mp hf
    cases hl
  | file name =>
    simp only [trail] at htrail
    split at htrail
    · cases htrail
    · next sources f hload =>
      cases htrail
      refine ⟨hwaits, fun g l hg hl => ?_, List.nodup_singleton _⟩
      cases List.mem_singleton.mp hg
      cases hl
      simp [(Sources.load_eq_ok hload).1]

/-- A reading that starts from other texts may stand in from the first step on. -/
theorem exists_replay {changed : List Location} {kept : Option Location → Prop}
    {limit : Option Location → Nat} {w' : Workspace} {origin' : Origin} {h : Trail}
    (hretold : Retold changed kept limit w w')
    (htrail : origin.trail w width searchPaths = .ok h) (hfits : h.Fits kept limit changed)
    (horigin : origin' = origin ∨ ∃ fileName source source', origin = .text fileName source ∧
      origin' = .text fileName source' ∧ kept none ∧ (Text.lines source.toList).take (limit none) =
        (Text.lines source'.toList).take (limit none)) :
    ∃ h', origin'.trail w' width searchPaths = .ok h' ∧ h'.builder = h.builder ∧
      h.Replays kept limit h'.stream := by
  rcases horigin with rfl | ⟨fileName, source, source', rfl, rfl, hkept, hlines⟩
  · cases origin' with
    | text fileName source =>
      cases htrail
      exact ⟨_, rfl, rfl, rfl, rfl, .cons (.inl rfl) .nil⟩
    | file name =>
      simp only [trail] at htrail ⊢
      split at htrail
      · cases htrail
      · next sources f hload =>
        cases htrail
        have hread : f.location ∈ sources.used := by simp [(Sources.load_eq_ok hload).1]
        obtain ⟨contents, hcontents, htwin⟩ :=
          Trail.twin_of_load hretold hload (hfits.read f.location · hread) width
        rw [hretold.same.load_of_text? hload hcontents]
        exact ⟨_, rfl, rfl, rfl, rfl, .cons htwin .nil⟩
  · cases htrail
    exact ⟨_, rfl, rfl, rfl, rfl, .cons
      (.inr ⟨_, rfl, hkept, Outline.sameUpTo_tokens width fileName hlines⟩) .nil⟩

/-- Another past that is the same leads to the same failure. -/
theorem parse_of_samePast {changed : List Location} {w' : Workspace} {origin' : Origin}
    {h₀ h : Trail} {n : Nat} {d : Diagnostic} (htrail : origin.trail w width searchPaths = .ok h₀)
    (hafter : h₀.after w width n = some h) (hfail : h.stream.step w width = .failed d)
    (hpast : SamePast changed w origin h w' origin') :
    origin'.parse w' width searchPaths = .error (h.builder.problems ++ [d]) := by
  have hs₀ := sound_of_trail htrail
  have hs := hs₀.after hafter
  -- the line that an open outline is at is its limit
  have hlimits : ∀ p, ∃ limit, p ∈ Trail.locations h.current →
      (∃ f, some f ∈ h.current ∧ f.location = p ∧ f.line = limit) ∧
        ∃ source source', origin.textAt? w p = some source ∧
          origin'.textAt? w' p = some source' ∧
          (Text.lines source.toList).take limit = (Text.lines source'.toList).take limit := by
    intro p
    by_cases hp : p ∈ Trail.locations h.current
    · obtain ⟨f, hf, rfl⟩ := Trail.mem_locations.mp hp
      exact ⟨f.line, fun _ => ⟨⟨f, hf, rfl, rfl⟩, hpast.lines f hf⟩⟩
    · exact ⟨0, fun hmem => absurd hmem hp⟩
  choose limit hlimit using hlimits
  have hwithin (f : OpenOutline) (hf : some f ∈ h.current)
      (hkept : f.location ∈ Trail.locations h.current) : f.line ≤ limit f.location := by
    obtain ⟨⟨g, hg, hlocation, hline⟩, -⟩ := hlimit f.location hkept
    rw [hs.eq_of_location hf hg hlocation.symm, hline, hlocation]
  have hused {l : Location} (hl : some l ∈ Trail.locations h.current) :
      l ∈ h.stream.sources.used := by
    obtain ⟨f, hf, hlocation⟩ := Trail.mem_locations.mp hl
    obtain ⟨g, hg, hsame, -⟩ := hs.mem_of_current hf
    exact hs.used g l hg (hsame.trans hlocation)
  have hretold : Retold changed (· ∈ Trail.locations h.current) limit w w' :=
    ⟨hpast.same, fun l _ hkept => (hlimit (some l) hkept).2⟩
  have hfits : h.Fits (· ∈ Trail.locations h.current) limit changed := by
    refine ⟨fun l hl => (hpast.unread l hl).1, fun l hl hread => ?_, fun p hp _ => ?_⟩
    · exact (hpast.unread l hl).2.resolve_right fun hn => hn.1 hread
    · obtain ⟨⟨f, hf, rfl, hline⟩, -⟩ := hlimit p hp
      obtain ⟨g, hg, hlocation, hle⟩ := hs.mem_of_current hf
      exact ⟨g, hg, hlocation, hle.trans (Nat.le_of_eq hline)⟩
  have hlookup (l : Location) (hl : l ∈ changed) (hm : h.stream.lookup? w = some l) :
      l ∈ h.stream.sources.used :=
    hused ((hpast.unread l hl).2.resolve_right fun hn => hn.2 hm)
  obtain ⟨h', htrail', hbuilder, hreplays⟩ :=
    exists_replay hretold htrail (hfits.of_after hs₀ hafter) (hpast.origin.imp_right (by
      rintro ⟨fileName, source, source', rfl, rfl, hopen⟩
      obtain ⟨-, _, _, hold, hnew, hlines⟩ := hlimit none hopen
      cases hold
      cases hnew
      exact ⟨fileName, source, source', rfl, rfl, hopen, hlines⟩))
  rw [parse_eq_trail, htrail']
  change h'.builder.resume (h'.stream.run w' width) = _
  rw [hbuilder]
  exact hreplays.resume_eq hretold hs₀ hafter hfail hfits hwithin hlookup

/-- Reading that cannot start has one problem, with the file as a whole. Reading that fails on the
way does so at a directive; it gives what was reported before it and, behind that, the failure at
the text of the directive. It gives the same for any texts that are the same as far as it came. -/
theorem failure_looks_back (w : Workspace) (width : UInt64) (searchPaths : List String)
    (origin : Origin) :
    (∀ problems, origin.trail w width searchPaths = .error problems →
        ∃ d, origin = .file d.fileName ∧ d.line = 0 ∧
          origin.parse w width searchPaths = .error [d]) ∧
      ∀ h₀, origin.trail w width searchPaths = .ok h₀ →
        (∀ d, (h₀.stream.run w width).2 = .failed d →
          ∃ n h, h₀.after w width n = some h ∧ h.stream.step w width = .failed d) ∧
        ∀ n h d, h₀.after w width n = some h → h.stream.step w width = .failed d →
          origin.parse w width searchPaths = .error (h.builder.problems ++ [d]) ∧
          (∃ t name rest outer, h.stream.opened = (t :: name :: rest) :: outer ∧
            t.kind.isDirective = true ∧ name.kind = .keywordText ∧ d = .ofToken d.message name) ∧
          ∀ changed w' origin', SamePast changed w origin h w' origin' →
            origin'.parse w' width searchPaths = origin.parse w width searchPaths := by
  refine ⟨fun problems htrail => ?_, fun h₀ htrail => ⟨fun d hrun => Trail.exists_failed hrun,
    fun n h d hafter hfail => ?_⟩⟩
  · cases origin with
    | text fileName source => cases htrail
    | file name =>
      rw [parse_eq_trail, htrail]
      simp only [trail] at htrail
      split at htrail
      · cases htrail
        exact ⟨_, rfl, rfl, rfl⟩
      · cases htrail
  · have hparse : origin.parse w width searchPaths = .error (h.builder.problems ++ [d]) := by
      rw [parse_eq_trail, htrail]
      exact Trail.resume_of_after hafter hfail
    refine ⟨hparse, ?_, fun changed w' origin' hpast => ?_⟩
    · have hmove := Stream.move_step w width h.stream
      rw [hfail] at hmove
      generalize h.stream.taking = taken at hmove
      cases hmove with
      | notIncluded ho ht hname hload => exact ⟨_, _, _, _, ho, by rw [ht]; rfl, hname, rfl⟩
      | notEmbedded ho ht hname => exact ⟨_, _, _, _, ho, by rw [ht]; rfl, hname, rfl⟩
    · rw [hparse]
      exact parse_of_samePast htrail hafter hfail hpast

end Origin

/-! ### An include that leads nowhere, and an embedding of a locked file -/

/-- An outline with a stray line that includes another one, which embeds a note and then comes to a
further directive. What follows in both of them is left open, and so is a further file. One file is
locked. -/
def partedWorkspace (directive mainRest partRest extra : String) : Workspace where
  tree.entries :=
    [(["main.m6r"], .file (Text.Utf8.encode
        ("Role:\n    r\nstray\nInclude: part.m6r\n" ++ mainRest))),
      (["part.m6r"], .file (Text.Utf8.encode
        ("Context:\n    c\n    Embed: note.txt\n" ++ directive ++ "\n" ++ partRest))),
      (["note.txt"], .file (Text.Utf8.encode "n\n")),
      (["sealed.txt"], .locked),
      (["extra.m6r"], .file (Text.Utf8.encode extra))]

private theorem sameBut_parted
    (directive mainRest partRest extra mainRest' partRest' extra' : String) :
    (partedWorkspace directive mainRest partRest extra).SameBut
      [["main.m6r"], ["part.m6r"], ["extra.m6r"]]
      (partedWorkspace directive mainRest' partRest' extra') where
  here := rfl
  locations := rfl
  entry l := by
    by_cases hmain : l = ["main.m6r"]
    · subst hmain
      exact .inr ⟨by simp, _, _, rfl, rfl⟩
    by_cases hpart : l = ["part.m6r"]
    · subst hpart
      exact .inr ⟨by simp, _, _, rfl, rfl⟩
    by_cases hextra : l = ["extra.m6r"]
    · subst hextra
      exact .inr ⟨by simp, _, _, rfl, rfl⟩
    simp only [partedWorkspace, FileTree.get?, List.lookup_cons, beq_false_of_ne hmain,
      beq_false_of_ne hpart, beq_false_of_ne hextra, true_or]

/-- The two ways in which the further directive fails. -/
inductive FailsParted : String → Diagnostic → Prop where
  | missing : FailsParted "Include: missing.m6r"
      ⟨"File not found: missing.m6r", "part.m6r", 4, 10, "Include: missing.m6r"⟩
  | locked : FailsParted "Embed: sealed.txt"
      ⟨"You do not have permission to access: sealed.txt", "part.m6r", 4, 8, "Embed: sealed.txt"⟩

/-- Reading comes to the further directive with the stray line reported, and fails there. What
follows in the open outlines and what the further file holds is no part of its past. -/
theorem exists_after_parted {directive : String} {d : Diagnostic}
    (hd : FailsParted directive d) :
    ∃ h₀ h, (Origin.file "main.m6r").trail
        (partedWorkspace directive "Context:\n    late\n" "  junk\n" "x\n") 4 [] = .ok h₀ ∧
      h₀.after (partedWorkspace directive "Context:\n    late\n" "  junk\n" "x\n") 4 16 = some h ∧
      h.stream.step (partedWorkspace directive "Context:\n    late\n" "  junk\n" "x\n") 4 =
        .failed d ∧
      h.builder.problems = [⟨"Unexpected token: stray at top level", "main.m6r", 3, 1, "stray"⟩] ∧
      Origin.SamePast [["main.m6r"], ["part.m6r"], ["extra.m6r"]]
        (partedWorkspace directive "Context:\n    late\n" "  junk\n" "x\n") (.file "main.m6r") h
        (partedWorkspace directive "\tother\nInclude: extra.m6r\n" "" "y\n")
          (.file "main.m6r") := by
  obtain ⟨w, hw⟩ : ∃ w, w = partedWorkspace directive "Context:\n    late\n" "  junk\n" "x\n" :=
    ⟨_, rfl⟩
  obtain ⟨w', hw'⟩ : ∃ w',
      w' = partedWorkspace directive "\tother\nInclude: extra.m6r\n" "" "y\n" := ⟨_, rfl⟩
  obtain ⟨x, hx⟩ : ∃ x, x = ((Origin.file "main.m6r").trail w 4 []).toOption.bind
      fun h₀ => h₀.after w 4 16 := ⟨_, rfl⟩
  obtain ⟨hcurrent, hembedded, hlookup, hproblems, hstep⟩ :
      x.map (·.current) = some [some { location := some ["part.m6r"], line := 4 },
        some { location := some ["main.m6r"], line := 4 }] ∧
      x.map (·.embedded) = some [["note.txt"]] ∧
      x.map (fun h => (h.stream.sources.used, h.stream.lookup? w)) =
        some ([["main.m6r"], ["part.m6r"]], none) ∧
      x.map (·.builder.problems) = some
        [⟨"Unexpected token: stray at top level", "main.m6r", 3, 1, "stray"⟩] ∧
      x.map (·.stream.step w 4) = some (.failed d) := by
    rw [hx, hw]
    cases hd <;> decide +kernel
  obtain ⟨h, rfl, hopen⟩ := Option.map_eq_some_iff.mp hcurrent
  obtain ⟨h₀, hstart, hafter⟩ := Option.bind_eq_some_iff.mp hx.symm
  have htrail : (Origin.file "main.m6r").trail w 4 [] = .ok h₀ := by
    cases htrail : (Origin.file "main.m6r").trail w 4 [] with
    | error problems => rw [htrail] at hstart; cases hstart
    | ok h₁ => rw [htrail] at hstart; cases hstart; rfl
  simp only [Option.map_some, Option.some.injEq, Prod.mk.injEq] at hembedded hlookup hproblems hstep
  rw [← hw, ← hw']
  refine ⟨h₀, h, htrail, hafter, hstep, hproblems, hw ▸ hw' ▸ sameBut_parted .., ?_, fun f hf => ?_,
    .inl rfl⟩
  · rw [hopen, hembedded, hlookup.1, hlookup.2]
    decide
  · rw [hopen] at hf
    simp only [List.mem_cons, Option.some.injEq, List.not_mem_nil, or_false] at hf
    subst hw hw'
    rcases hf with rfl | rfl
    · refine ⟨"Context:\n    c\n    Embed: note.txt\n" ++ directive ++ "\n  junk\n",
        "Context:\n    c\n    Embed: note.txt\n" ++ directive ++ "\n", ?_⟩
      cases hd <;> decide +kernel
    · refine ⟨"Role:\n    r\nstray\nInclude: part.m6r\nContext:\n    late\n",
        "Role:\n    r\nstray\nInclude: part.m6r\n\tother\nInclude: extra.m6r\n", ?_⟩
      cases hd <;> decide +kernel

/-- The stray line and the include are reported, whatever follows the two open directives and
whatever the file that is not read holds. An embedding of the locked file is reported in the same
way. -/
theorem failure_looks_back_parted :
    (∃ d d', d.line = 3 ∧ d'.fileName = "part.m6r" ∧ d'.line = 4 ∧ d'.column = 10 ∧
      d'.message = "File not found: missing.m6r" ∧
      (Origin.file "main.m6r").parse (partedWorkspace "Include: missing.m6r"
        "Context:\n    late\n" "  junk\n" "x\n") 4 [] = .error [d, d'] ∧
      (Origin.file "main.m6r").parse (partedWorkspace "Include: missing.m6r"
        "\tother\nInclude: extra.m6r\n" "" "y\n") 4 [] = .error [d, d']) ∧
    ∃ d d', d.line = 3 ∧ d'.fileName = "part.m6r" ∧ d'.line = 4 ∧ d'.column = 8 ∧
      d'.message = "You do not have permission to access: sealed.txt" ∧
      (Origin.file "main.m6r").parse (partedWorkspace "Embed: sealed.txt"
        "Context:\n    late\n" "  junk\n" "x\n") 4 [] = .error [d, d'] ∧
      (Origin.file "main.m6r").parse (partedWorkspace "Embed: sealed.txt"
        "\tother\nInclude: extra.m6r\n" "" "y\n") 4 [] = .error [d, d'] := by
  have hfails {directive : String} {d' : Diagnostic} (hd : FailsParted directive d') :
      ∃ d : Diagnostic, d.line = 3 ∧
        (Origin.file "main.m6r").parse (partedWorkspace directive
          "Context:\n    late\n" "  junk\n" "x\n") 4 [] = .error [d, d'] ∧
        (Origin.file "main.m6r").parse (partedWorkspace directive
          "\tother\nInclude: extra.m6r\n" "" "y\n") 4 [] = .error [d, d'] := by
    obtain ⟨h₀, h, htrail, hafter, hstep, hproblems, hpast⟩ := exists_after_parted hd
    obtain ⟨hparse, -, hsame⟩ := (Origin.failure_looks_back _ 4 [] (.file "main.m6r")).2 h₀ htrail
      |>.2 16 h _ hafter hstep
    rw [hproblems] at hparse
    exact ⟨_, rfl, hparse, (hsame _ _ _ hpast).trans hparse⟩
  obtain ⟨d, hline, hparse, hsame⟩ := hfails .missing
  obtain ⟨e, hline', hparse', hsame'⟩ := hfails .locked
  exact ⟨⟨d, _, hline, rfl, rfl, rfl, rfl, hparse, hsame⟩,
    ⟨e, _, hline', rfl, rfl, rfl, rfl, hparse', hsame'⟩⟩

end PromptOutline
