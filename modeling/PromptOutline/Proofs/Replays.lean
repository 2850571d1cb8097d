import PromptOutline.Proofs.Trails
import PromptOutline.Proofs.Variants

/-!
# Two readings in lock step

A reading that fails is followed next to one of files that hold other texts. The files that differ
are not read up to the failure, or they are open outlines whose first lines are the same, down to
the line that the failure finds them at. In each open file both readings have the same tokens up to
that line, and they never take a token behind it: lines only go up, and an outline that is open at
the end was never on a later line. So they take the same steps and fail alike.
-/

namespace PromptOutline

/-! ### Files with other contents -/

/-- The text that the file at a location holds. -/
def Workspace.text? (w : Workspace) (l : Location) : Option String :=
  match w.tree.get? l with
  | some (.file bytes) => Text.Utf8.text? bytes
  | _ => none

namespace Sources

variable {w : Workspace} {s s' : Sources} {name : String}

/-- A name that leads to a location that is recorded is not loaded again. -/
theorem load_of_used {l : Location} (hlookup : s.lookup? w name = some l) (hused : l ∈ s.used) :
    s.load w name = (s, .error (.alreadyUsed name)) := by
  rw [lookup?] at hlookup
  rw [load]
  cases hpath : s.resolve w name with
  | error fault =>
    rw [hpath] at hlookup
    cases hlookup
  | ok path =>
    simp only [hpath] at hlookup ⊢
    cases hdirectory : w.isDirectory path with
    | true =>
      rw [hdirectory] at hlookup
      cases hlookup
    | false =>
      simp only [hdirectory] at hlookup ⊢
      cases hlocate : w.locate path with
      | error fault =>
        rw [hlocate] at hlookup
        cases hlookup
      | ok k =>
        rw [hlocate] at hlookup
        obtain rfl : k = l := Option.some.inj hlookup
        simp [readOnce, hused]

/-- What is loaded is the text of a file. -/
theorem text?_of_load {f : SourceFile} (h : s.load w name = (s', .ok f)) :
    w.text? f.location = some f.contents := by
  unfold load at h
  split at h
  · cases h
  · split at h
    · cases h
    · split at h
      · cases h
      · next l hlocate =>
        unfold readOnce at h
        split at h
        · cases h
        · split at h
          · cases h
          · next contents hread =>
            cases h
            simp only [Workspace.readText, Workspace.read, hlocate] at hread
            unfold Workspace.text?
            split
            · next bytes hget =>
              simp only [hget] at hread
              split at hread
              · next hcontents => cases hread; exact hcontents
              · cases hread
            · next hget =>
              cases hentry : w.tree.get? l with
              | none => simp [hentry] at hread
              | some e =>
                cases e with
                | file bytes => exact absurd hentry (hget bytes)
                | directory => simp [hentry] at hread
                | full => simp [hentry] at hread
                | locked => simp [hentry] at hread

end Sources

namespace Workspace.SameBut

variable {changed : List Location} {w w' : Workspace} {s s' : Sources} {name : String}

/-- Names lead to the same outlines where only contents differ. -/
theorem lookup?_eq (h : w.SameBut changed w') (s : Sources) (name : String) :
    s.lookup? w name = s.lookup? w' name := by
  simp only [Sources.lookup?, h.resolve_eq, h.isDirectory_eq, h.locate_eq]

private theorem text?_of_notMem (h : w.SameBut changed w') {l : Location} (hl : l ∉ changed) :
    w.text? l = w'.text? l := by
  rw [text?, text?, h.get?_of_notMem hl]

/-- An outline is loaded with the text that it has. -/
theorem load_of_text? (h : w.SameBut changed w') {f : SourceFile} {contents : String}
    (hload : s.load w name = (s', .ok f)) (hcontents : w'.text? f.location = some contents) :
    s.load w' name = (s', .ok { f with contents }) := by
  rw [Sources.load] at hload ⊢
  rw [← h.resolve_eq, ← h.isDirectory_eq, ← h.locate_eq]
  cases hpath : s.resolve w name with
  | error fault =>
    rw [hpath] at hload
    cases hload
  | ok path =>
    simp only [hpath] at hload ⊢
    cases hdirectory : w.isDirectory path with
    | true =>
      rw [hdirectory] at hload
      cases hload
    | false =>
      simp only [hdirectory, Bool.false_eq_true, if_false] at hload ⊢
      cases hlocate : w.locate path with
      | error fault =>
        rw [hlocate] at hload
        cases hload
      | ok l =>
        simp only [hlocate, Sources.readOnce] at hload ⊢
        split at hload
        · cases hload
        · next hused =>
          split at hload
          · cases hload
          · cases hload
            have hread : w'.readText path = .ok contents := by
              unfold text? at hcontents
              split at hcontents
              · next bytes hget =>
                simp only [readText, read, ← h.locate_eq, hlocate, hget, hcontents]
              · cases hcontents
            rw [if_neg hused, hread]

/-- Files at locations that did not change are embedded as before. -/
theorem mapM_loadEmbedded_eq (h : w.SameBut changed w') {paths : List String}
    {files : List SourceFile} (hfiles : paths.mapM (Sources.loadEmbedded w) = .ok files)
    (hout : ∀ f ∈ files, f.location ∉ changed) :
    paths.mapM (Sources.loadEmbedded w') = .ok files := by
  have hsides := mapM_eq_ok_iff.mp hfiles
  refine mapM_eq_ok_iff.mpr ?_
  clear hfiles
  induction hsides with
  | nil => exact .nil
  | @cons path f paths files hf _ ih =>
    have hsame : Sources.loadEmbedded w path = Sources.loadEmbedded w' path := by
      refine (h.loadEmbedded_cases path).resolve_right ?_
      rintro ⟨g, g', hg, -, hlocation, -⟩
      cases hf.symm.trans hg
      exact hout f List.mem_cons_self hlocation
    exact .cons (hsame ▸ hf) (ih fun g hg => hout g (List.mem_cons_of_mem f hg))

/-- An embedding that fails fails in the same way. -/
theorem mapM_loadEmbedded_error (h : w.SameBut changed w') {paths : List String}
    {fault : LoadFault} (hfault : paths.mapM (Sources.loadEmbedded w) = .error fault) :
    paths.mapM (Sources.loadEmbedded w') = .error fault := by
  obtain ⟨before, path, after, rfl, hbefore, hpath⟩ := mapM_eq_error_iff.mp hfault
  refine mapM_eq_error_iff.mpr ⟨before, path, after, rfl, fun p hp => ?_, ?_⟩
  · obtain ⟨f, hf⟩ := hbefore p hp
    rcases h.loadEmbedded_cases p with hsame | ⟨-, g', -, hg', -⟩
    · exact ⟨f, hsame ▸ hf⟩
    · exact ⟨g', hg'⟩
  · have hsame : Sources.loadEmbedded w path = Sources.loadEmbedded w' path := by
      refine (h.loadEmbedded_cases path).resolve_right ?_
      rintro ⟨g, g', hg, -⟩
      cases hpath.symm.trans hg
    rw [← hsame, hpath]

end Workspace.SameBut

/-! ### The same tokens up to a line -/

namespace Stream

variable {changed : List Location} {w w' : Workspace} {sources : Sources} {t : Token}
  {shared rest rest' : List Token}

/-- A name behind a token is among the tokens that are shared. -/
theorem name_shared {name : Token} {after : List Token} (hname : name.kind = .keywordText)
    (hrest : Nameless rest) (h : name :: after = shared ++ rest) :
    ∃ left, shared = name :: left ∧ after = left ++ rest := by
  cases shared with
  | nil =>
    rw [List.nil_append] at h
    exact absurd hname (hrest name (by rw [← h]; rfl))
  | cons u left =>
    cases h
    exact ⟨left, rfl, rfl⟩

/-- Tokens that a step passes are passed whatever follows the shared ones. -/
theorem Passes.elsewhere {taken after : List Token} {es : List Event} (h : w.SameBut changed w')
    (hrest : Nameless rest) (hrest' : Nameless rest')
    (hpasses : Passes w sources (t :: (shared ++ rest)) taken after es) :
    ∃ left, after = left ++ rest ∧
      Passes w' sources (t :: (shared ++ rest')) taken (left ++ rest') es := by
  generalize hts : t :: (shared ++ rest) = ts at hpasses
  cases hpasses with
  | given ht =>
    cases hts
    exact ⟨shared, rfl, .given ht⟩
  | bare ht hnext =>
    cases hts
    refine ⟨shared, rfl, .bare ht ?_⟩
    cases shared with
    | nil => exact hrest'
    | cons u shared => exact hnext
  | unmatched ht hpattern hexpand =>
    obtain ⟨rfl, htail⟩ := List.cons.inj hts
    obtain ⟨left, rfl, rfl⟩ := name_shared hpattern hrest htail.symm
    exact ⟨left, rfl, .unmatched ht hpattern (h.expand_eq .. ▸ hexpand)⟩
  | misspelt ht hpattern hexpand =>
    obtain ⟨rfl, htail⟩ := List.cons.inj hts
    obtain ⟨left, rfl, rfl⟩ := name_shared hpattern hrest htail.symm
    exact ⟨left, rfl, .misspelt ht hpattern (h.expand_eq .. ▸ hexpand)⟩

end Stream

/-! ### Two readings in lock step -/

/-- Other contents: the files at some locations hold other texts. Of those places that are kept, the
first lines are the same, as many as the limit says. -/
structure Retold (changed : List Location) (kept : Option Location → Prop)
    (limit : Option Location → Nat) (w w' : Workspace) : Prop where
  same : w.SameBut changed w'
  texts : ∀ l ∈ changed, kept (some l) → ∃ text text', w.text? l = some text ∧
    w'.text? l = some text' ∧ (Text.lines text.toList).take (limit (some l)) =
      (Text.lines text'.toList).take (limit (some l))

namespace Trail

section

variable (kept : Option Location → Prop) (limit : Option Location → Nat)

/-- Two states of one file: the same tokens, or the same ones up to the limit of an outline that is
kept. -/
def Twin (file : Option OpenOutline) (ts us : List Token) : Prop :=
  ts = us ∨ ∃ f, file = some f ∧ kept f.location ∧ Outline.SameUpTo (limit f.location) ts us

/-- Two states of all open files. -/
inductive Twins : List (Option OpenOutline) → List (List Token) → List (List Token) → Prop where
  | nil : Twins [] [] []
  | cons {file : Option OpenOutline} {files : List (Option OpenOutline)} {ts us : List Token}
      {tss uss : List (List Token)} (hfile : Twin kept limit file ts us)
      (hfiles : Twins files tss uss) : Twins (file :: files) (ts :: tss) (us :: uss)

/-- A stream that may stand in for that of a trail. -/
structure Replays (h : Trail) (s : Stream) : Prop where
  sources : s.sources = h.stream.sources
  ending : s.ending = h.stream.ending
  opened : Twins kept limit h.files h.stream.opened s.opened

/-- What the end of a reading asks of a state before it: no changed file is embedded, one that is
read is kept, and an outline that is kept is open once it is read, on no later line than its
limit. -/
structure Fits (changed : List Location) (h : Trail) : Prop where
  unembedded : ∀ l ∈ changed, l ∉ h.embedded
  read : ∀ l ∈ changed, l ∈ h.stream.sources.used → kept (some l)
  within : ∀ p, kept p → (∀ l, p = some l → l ∈ h.stream.sources.used) →
    ∃ f, some f ∈ h.files ∧ f.location = p ∧ f.line ≤ limit p

end

variable {changed : List Location} {kept : Option Location → Prop}
  {limit : Option Location → Nat} {w w' : Workspace} {width : UInt64} {h h' : Trail} {s : Stream}

private theorem Goes.embedded_subset (hg : Goes w width h h') : h.embedded ⊆ h'.embedded := by
  cases hg with
  | embedded => exact List.subset_append_left ..
  | _ => exact List.Subset.refl _

/-- What fits after a step fits before it. -/
theorem Fits.before (hs : h.Sound) (hg : Goes w width h h') (hf : Fits kept limit changed h') :
    Fits kept limit changed h where
  unembedded l hl hm := hf.unembedded l hl (hg.embedded_subset hm)
  read l hl hm := hf.read l hl (hg.used_subset hm)
  within p hp hread := by
    obtain ⟨f, hmem, rfl, hline⟩ := hf.within p hp fun l hl => hg.used_subset (hread l hl)
    rcases hg.mem_files hmem with hcurrent | ⟨l, hl, hfresh, -⟩
    · obtain ⟨g, hg, hlocation, hle⟩ := hs.mem_of_current hcurrent
      exact ⟨g, hg, hlocation, hle.trans hline⟩
    · exact absurd (hread l hl) hfresh

/-- Open outlines with one location are one. -/
theorem Sound.eq_of_location (hs : h.Sound) {f g : OpenOutline} (hf : some f ∈ h.current)
    (hg : some g ∈ h.current) (hl : f.location = g.location) : f = g := by
  have hdistinct : (locations h.current).Nodup := by
    rw [locations_current]
    exact hs.distinct
  refine List.inj_on_of_nodup_map hdistinct ?_ ?_ hl
  · exact List.mem_filterMap.mpr ⟨_, hf, rfl⟩
  · exact List.mem_filterMap.mpr ⟨_, hg, rfl⟩

/-- Up to the step that fits, every outline that is kept is within its limit. -/
theorem Fits.line_le (hs : h.Sound) (hg : Goes w width h h') (hf : Fits kept limit changed h')
    {f : OpenOutline} (hmem : some f ∈ h.current) (hkept : kept f.location) :
    f.line ≤ limit f.location := by
  have hused {l : Location} (hl : f.location = some l) : l ∈ h.stream.sources.used := by
    obtain ⟨g, hg, hlocation, -⟩ := hs.mem_of_current hmem
    exact hs.used g l hg (hlocation.trans hl)
  obtain ⟨g, hgmem, hlocation, hline⟩ :=
    hf.within f.location hkept fun l hl => hg.used_subset (hused hl)
  rcases hg.mem_files hgmem with hcurrent | ⟨l, hl, hfresh, -⟩
  · obtain rfl := hs.eq_of_location hmem hcurrent hlocation.symm
    exact hline
  · exact absurd (hused (hlocation.symm.trans hl)) hfresh

/-- A token within the limits comes first in both states of the innermost file, and whatever is left
of what they share, they stay twins. -/
theorem Replays.front (hs : h.Sound) (hr : Replays kept limit h s) {ts more : List Token}
    {outer : List (List Token)} {t : Token} (ho : h.stream.opened = ts :: outer)
    (ht : h.stream.taking = t :: more)
    (hwithin : ∀ f, some f ∈ h.current → kept f.location → f.line ≤ limit f.location) :
    ∃ shared rest rest' outer', ts = t :: (shared ++ rest) ∧
      s.opened = (t :: (shared ++ rest')) :: outer' ∧ Stream.Nameless rest ∧
      Stream.Nameless rest' ∧ Twins kept limit h.current.tail outer outer' ∧
      ∀ left, Twins kept limit h.current ((left ++ rest) :: outer) ((left ++ rest') :: outer') := by
  obtain ⟨file, files, hfiles, -, -⟩ := hs.files_eq ho
  have hcurrent := current_eq hfiles ht
  obtain ⟨tail, outer₀, htop⟩ := Stream.opened_of_taking ht
  obtain ⟨rfl, rfl⟩ : ts = t :: tail ∧ outer = outer₀ := by
    rw [ho] at htop
    exact ⟨(List.cons.inj htop).1, (List.cons.inj htop).2⟩
  have htwins := hr.opened
  rw [hfiles, ho] at htwins
  generalize hopened : s.opened = opened at htwins
  cases htwins with
  | @cons _ _ _ us _ outer' htwin hrest =>
    rw [hcurrent]
    rcases htwin with rfl | ⟨f, rfl, hkept, shared, rest, rest', hts, rfl, hn, hn', hlater⟩
    · exact ⟨tail, [], [], outer', by simp, by simp, Stream.nameless_nil, Stream.nameless_nil,
        hrest, fun left => .cons (.inl rfl) hrest⟩
    · cases shared with
      | nil =>
        -- the token would stand behind the limit
        have hle := hwithin { f with line := t.line } (by rw [hcurrent]; exact List.mem_cons_self)
          hkept
        have hlt := hlater t (by rw [List.nil_append] at hts; rw [← hts]; exact List.mem_cons_self)
        exact absurd hle (Nat.not_le.mpr hlt)
      | cons u shared =>
        obtain ⟨rfl, rfl⟩ := List.cons.inj hts
        exact ⟨shared, rest, rest', outer', rfl, rfl, hn, hn', hrest, fun left =>
          .cons (.inr ⟨_, rfl, hkept, left, rest, rest', rfl, rfl, hn, hn', hlater⟩) hrest⟩

private theorem Twins.embedding {tss uss : List (List Token)} {around : List (Option OpenOutline)}
    (ht : Twins kept limit around tss uss) (files : List SourceFile) :
    Twins kept limit (files.map (fun _ => none) ++ around)
      (files.map (fun f => Embedding.tokens f.name f.contents) ++ tss)
      (files.map (fun f => Embedding.tokens f.name f.contents) ++ uss) := by
  induction files with
  | nil => exact ht
  | cons f files ih => exact .cons (.inl rfl) ih

/-- An outline that may be loaded has its text, and its tokens are the same up to its limit. -/
theorem twin_of_load (hretold : Retold changed kept limit w w')
    {sources sources' : Sources} {name : String} {f : SourceFile}
    (hload : sources.load w name = (sources', .ok f))
    (hkept : f.location ∈ changed → kept (some f.location)) (width : UInt64) :
    ∃ contents, w'.text? f.location = some contents ∧
      Twin kept limit (some { location := some f.location })
        (Outline.tokens width f.name f.contents) (Outline.tokens width f.name contents) := by
  have htext := Sources.text?_of_load hload
  by_cases hl : f.location ∈ changed
  · obtain ⟨text, text', hold, hnew, hlines⟩ := hretold.texts f.location hl (hkept hl)
    obtain rfl : text = f.contents := Option.some.inj (hold.symm.trans htext)
    exact ⟨text', hnew, .inr ⟨_, rfl, hkept hl, Outline.sameUpTo_tokens width f.name hlines⟩⟩
  · exact ⟨f.contents, hretold.same.text?_of_notMem hl ▸ htext, .inl rfl⟩

/-- A step that fits is taken by both readings, and they stay in step. -/
theorem Replays.step (hretold : Retold changed kept limit w w') (hs : h.Sound)
    (hg : Goes w width h h') (hf : Fits kept limit changed h') (hr : Replays kept limit h s) :
    ∃ es s', s.step w' width = .next es s' ∧ h'.builder = es.foldl Builder.event h.builder ∧
      Replays kept limit h' s' := by
  have hwithin := fun f hmem hkept => hf.line_le hs hg (f := f) hmem hkept
  cases hg with
  | @dropped outer ho =>
    obtain ⟨file, files, hfiles, -, -⟩ := hs.files_eq ho
    have hcurrent : h.current = file :: files := by
      simp [current, hfiles, Stream.taking, ho]
    have htwins := hr.opened
    rw [hfiles, ho] at htwins
    generalize hopened : s.opened = opened at htwins
    cases htwins with
    | @cons _ _ _ us _ outer' htwin hrest =>
      rcases htwin with rfl | ⟨f, rfl, hkept, -⟩
      · refine ⟨[], _, (Stream.Move.dropped hopened).step_eq, rfl, hr.sources, hr.ending, ?_⟩
        rw [hcurrent]
        exact hrest
      · -- an outline that is kept stays open
        obtain ⟨g, hmem, hlocation, -⟩ := hf.within f.location hkept fun l hl =>
          hs.used f l (by simp [hfiles]) hl
        have hdistinct := hs.distinct
        rw [hfiles] at hdistinct
        have hmem' : some g ∈ files := by simpa [hcurrent] using hmem
        exact absurd (mem_locations.mpr ⟨g, hmem', hlocation⟩) (List.nodup_cons.mp hdistinct).1
  | @ended t rest outer ho ht =>
    obtain ⟨shared, rest, rest', outer', -, ho', -, -, htail, -⟩ :=
      hr.front hs ho (Stream.taking_of_kind ho (by rw [ht]; rfl)) hwithin
    exact ⟨[], _, (Stream.Move.ended ho' ht).step_eq, rfl, hr.sources, rfl, htail⟩
  | passed ho hpasses =>
    obtain ⟨t, more, rfl, -⟩ := hpasses.sublist
    obtain ⟨shared, rest, rest', outer', rfl, ho', hn, hn', -, htwins⟩ :=
      hr.front hs ho (hpasses.taking ho) hwithin
    obtain ⟨left, rfl, hpasses'⟩ := hpasses.elsewhere hretold.same hn hn'
    rw [← hr.sources] at hpasses'
    exact ⟨_, _, (hpasses'.move ho').step_eq, rfl, hr.sources, hr.ending, htwins left⟩
  | @included t name after outer sources f ho ht hname hload =>
    obtain ⟨shared, rest, rest', outer', hts, ho', hn, hn', -, htwins⟩ :=
      hr.front hs ho (Stream.taking_directive ho (by rw [ht]; rfl) hname) hwithin
    obtain ⟨left, rfl, rfl⟩ := Stream.name_shared hname hn (List.cons.inj hts).2
    have hread : f.location ∈ sources.used := by simp [(Sources.load_eq_ok hload).1]
    obtain ⟨contents, hcontents, htwin⟩ :=
      twin_of_load hretold hload (hf.read f.location · hread) width
    have hload' := hretold.same.load_of_text? hload hcontents
    rw [← hr.sources] at hload'
    exact ⟨[], _, (Stream.Move.included ho' ht hname hload').step_eq, rfl, rfl, hr.ending,
      .cons htwin (htwins left)⟩
  | @embedded t pattern after outer paths files ho ht hpattern hexpand hne hfiles =>
    obtain ⟨shared, rest, rest', outer', hts, ho', hn, hn', -, htwins⟩ :=
      hr.front hs ho (Stream.taking_directive ho (by rw [ht]; rfl) hpattern) hwithin
    obtain ⟨left, rfl, rfl⟩ := Stream.name_shared hpattern hn (List.cons.inj hts).2
    have hfiles' := hretold.same.mapM_loadEmbedded_eq hfiles fun f hmem hl =>
      hf.unembedded f.location hl (List.mem_append_right _ (List.mem_map.mpr ⟨f, hmem, rfl⟩))
    rw [hretold.same.expand_eq, ← hr.sources] at hexpand
    refine ⟨[], _, (Stream.Move.embedded ho' ht hpattern hexpand hne hfiles').step_eq, rfl,
      hr.sources, hr.ending, ?_⟩
    exact (htwins left).embedding files

/-- A name that is looked up where a file changed leads nowhere new in either workspace. -/
theorem load_elsewhere (hsame : w.SameBut changed w') {sources sources' : Sources}
    {name : String} {fault : LoadFault} (hload : sources.load w name = (sources', .error fault))
    (hused : ∀ l ∈ changed, sources.lookup? w name = some l → l ∈ sources.used) :
    ∃ sources', sources.load w' name = (sources', .error fault) := by
  by_cases hlookup : ∃ l ∈ changed, sources.lookup? w name = some l
  · obtain ⟨l, hl, hlookup⟩ := hlookup
    have hmem := hused l hl hlookup
    rw [Sources.load_of_used hlookup hmem] at hload
    cases hload
    exact ⟨sources, Sources.load_of_used (hsame.lookup?_eq .. ▸ hlookup) hmem⟩
  · refine ⟨sources', ?_⟩
    rw [← hsame.load_eq fun l hl hm => hlookup ⟨l, hm, hl⟩]
    exact hload

/-- A step that fails does so in both readings. -/
theorem Replays.failed {d : Diagnostic} (hretold : Retold changed kept limit w w') (hs : h.Sound)
    (hr : Replays kept limit h s) (hfail : h.stream.step w width = .failed d)
    (hwithin : ∀ f, some f ∈ h.current → kept f.location → f.line ≤ limit f.location)
    (hlookup : ∀ l ∈ changed, h.stream.lookup? w = some l → l ∈ h.stream.sources.used) :
    s.step w' width = .failed d := by
  have hmove := Stream.move_step w width h.stream
  rw [hfail] at hmove
  generalize h.stream.taking = taken at hmove
  cases hmove with
  | @notIncluded t name after outer sources fault ho ht hname hload =>
    obtain ⟨shared, rest, rest', outer', hts, ho', hn, -, -, -⟩ :=
      hr.front hs ho (Stream.taking_directive ho (by rw [ht]; rfl) hname) hwithin
    obtain ⟨left, rfl, rfl⟩ := Stream.name_shared hname hn (List.cons.inj hts).2
    have hlooked : h.stream.lookup? w = h.stream.sources.lookup? w name.text := by
      simp [Stream.lookup?, ho, ht, hname]
    rw [hlooked] at hlookup
    obtain ⟨sources', hload'⟩ := load_elsewhere hretold.same hload hlookup
    rw [← hr.sources] at hload'
    exact (Stream.Move.notIncluded ho' ht hname hload').step_eq
  | @notEmbedded t pattern after outer paths fault ho ht hpattern hexpand hne hfiles =>
    obtain ⟨shared, rest, rest', outer', hts, ho', hn, -, -, -⟩ :=
      hr.front hs ho (Stream.taking_directive ho (by rw [ht]; rfl) hpattern) hwithin
    obtain ⟨left, rfl, rfl⟩ := Stream.name_shared hpattern hn (List.cons.inj hts).2
    rw [hretold.same.expand_eq, ← hr.sources] at hexpand
    exact (Stream.Move.notEmbedded ho' ht hpattern hexpand hne
      (hretold.same.mapM_loadEmbedded_error hfiles)).step_eq

/-! ### Whole readings -/

variable {n : Nat} {last : Trail} {d : Diagnostic}

private theorem step_of_advance (hadvance : h.advance w width = some h') :
    ∃ es, h.stream.step w width = .next es h'.stream ∧
      h'.builder = es.foldl Builder.event h.builder := by
  unfold advance at hadvance
  split at hadvance
  · next es s hstep =>
    cases hadvance
    exact ⟨es, hstep, rfl⟩
  · cases hadvance

private theorem resume_of_next {b : Builder} {es : List Event} {s' : Stream}
    (hstep : s.step w width = .next es s') :
    b.resume (s.run w width) = (es.foldl Builder.event b).resume (s'.run w width) := by
  rw [Stream.run_of_next hstep, Builder.resume_append]

private theorem resume_of_failed {b : Builder} (hfail : s.step w width = .failed d) :
    b.resume (s.run w width) = .error (b.problems ++ [d]) := by
  rw [Stream.run_of_failed hfail]
  simp [Builder.resume, Builder.result, Builder.note]

/-- A state fits if one that is reached from it does. -/
theorem Fits.of_after (hs : h.Sound) (hafter : h.after w width n = some last)
    (hf : Fits kept limit changed last) : Fits kept limit changed h := by
  induction n generalizing h with
  | zero =>
    cases hafter
    exact hf
  | succ n ih =>
    obtain ⟨h', hadvance, hafter⟩ := Option.bind_eq_some_iff.mp hafter
    have hg := goes_of_advance hadvance
    exact .before hs hg (ih (hs.goes hg) hafter)

/-- A state that is reached from a sound one is sound. -/
theorem Sound.after (hs : h.Sound) (hafter : h.after w width n = some last) : last.Sound := by
  induction n generalizing h with
  | zero =>
    cases hafter
    exact hs
  | succ n ih =>
    obtain ⟨h', hadvance, hafter⟩ := Option.bind_eq_some_iff.mp hafter
    exact ih (hs.goes (goes_of_advance hadvance)) hafter

/-- A reading that fails gives what was reported before and the failure. -/
theorem resume_of_after (hafter : h.after w width n = some last)
    (hfail : last.stream.step w width = .failed d) :
    h.builder.resume (h.stream.run w width) = .error (last.builder.problems ++ [d]) := by
  induction n generalizing h with
  | zero =>
    cases hafter
    exact resume_of_failed hfail
  | succ n ih =>
    obtain ⟨h', hadvance, hafter⟩ := Option.bind_eq_some_iff.mp hafter
    obtain ⟨es, hstep, hbuilder⟩ := step_of_advance hadvance
    rw [resume_of_next hstep, ← hbuilder, ih hafter]

/-- A reading that stands in for one that fails gives the same. -/
theorem Replays.resume_eq (hretold : Retold changed kept limit w w') (hs : h.Sound)
    (hr : Replays kept limit h s) (hafter : h.after w width n = some last)
    (hfail : last.stream.step w width = .failed d) (hf : Fits kept limit changed last)
    (hwithin : ∀ f, some f ∈ last.current → kept f.location → f.line ≤ limit f.location)
    (hlookup : ∀ l ∈ changed, last.stream.lookup? w = some l →
      l ∈ last.stream.sources.used) :
    h.builder.resume (s.run w' width) = .error (last.builder.problems ++ [d]) := by
  induction n generalizing h s with
  | zero =>
    cases hafter
    exact resume_of_failed (hr.failed hretold hs hfail hwithin hlookup)
  | succ n ih =>
    obtain ⟨h', hadvance, hafter⟩ := Option.bind_eq_some_iff.mp hafter
    have hg := goes_of_advance hadvance
    have hs' := hs.goes hg
    obtain ⟨es, s', hstep, hbuilder, hr'⟩ :=
      hr.step hretold hs hg (.of_after hs' hafter hf)
    rw [resume_of_next hstep, ← hbuilder, ih hs' hr' hafter]

/-- A run that fails is followed up to the step that fails. -/
theorem exists_failed (hrun : (h.stream.run w width).2 = .failed d) :
    ∃ n last, h.after w width n = some last ∧ last.stream.step w width = .failed d := by
  obtain ⟨stream, hstream⟩ : ∃ stream, h.stream = stream := ⟨_, rfl⟩
  induction stream using Stream.run_induction w width generalizing h with
  | finished stream hstep =>
    rw [hstream, Stream.run_of_finished hstep] at hrun
    cases hrun
  | failed stream d' hstep =>
    rw [hstream, Stream.run_of_failed hstep] at hrun
    cases hrun
    exact ⟨0, h, rfl, hstream ▸ hstep⟩
  | next stream es stream' hstep ih =>
    subst hstream
    obtain ⟨h', hadvance, hnext⟩ : ∃ h', h.advance w width = some h' ∧ h'.stream = stream' := by
      simp [advance, hstep]
    rw [Stream.run_of_next hstep, ← hnext] at hrun
    obtain ⟨n, last, hafter, hfail⟩ := ih hrun hnext
    exact ⟨n + 1, last, by rw [after, hadvance]; exact hafter, hfail⟩

end Trail

end PromptOutline
