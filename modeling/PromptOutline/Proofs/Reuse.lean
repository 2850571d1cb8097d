import PromptOutline.Proofs.Lookups

/-!
# No outline is read twice

A record of used files is asked in turn to load outlines, to read files to embed, to resolve names
and to expand patterns, on workspaces that may change between the calls. Only loading changes the
record, and `Loads` lists everything it can lead to: nothing is recorded where a name leads to no
file, and any other name has its location recorded before the file is read. So the locations of the
loaded outlines are distinct, however their names are written.
-/

namespace PromptOutline

/-- Where a path leads, there is something to read. -/
theorem Workspace.readText_ne_missing {w : Workspace} {path : String} (h : w.exists? path = true) :
    w.readText path ≠ .error .missing := by
  simp only [exists?, entry?] at h
  cases hlocate : w.locate path with
  | error fault =>
    rw [hlocate] at h
    cases h
  | ok l =>
    rw [hlocate] at h
    simp only [readText, read, hlocate]
    cases hget : w.tree.get? l with
    | none =>
      simp only [hget] at h
      cases h
    | some e =>
      cases e with
      | file bytes =>
        dsimp only
        split <;> exact fun he => by cases he
      | _ => exact fun he => by cases he

namespace Sources

variable {w : Workspace} {s : Sources} {name : String}

/-! ### Loading -/

/-- Everything that loading a name can lead to. -/
inductive Loads (w : Workspace) (s : Sources) (name : String) :
    Sources × Except LoadFault SourceFile → Prop where
  | notFound (hnone : s.lookup? w name = none) : Loads w s name (s, .error (.notFound name))
  | isDirectory (hnone : s.lookup? w name = none) : Loads w s name (s, .error (.isDirectory name))
  | alreadyUsed {l : Location} (hlookup : s.lookup? w name = some l) (hused : l ∈ s.used) :
      Loads w s name (s, .error (.alreadyUsed name))
  | permissionDenied {l : Location} (hlookup : s.lookup? w name = some l) (hnew : l ∉ s.used) :
      Loads w s name (s.adding [l], .error (.permissionDenied name))
  | unreadable {l : Location} {reason : String} (hlookup : s.lookup? w name = some l)
      (hnew : l ∉ s.used) : Loads w s name (s.adding [l], .error (.unreadable name reason))
  | loaded {f : SourceFile} (hlookup : s.lookup? w name = some f.location)
      (hnew : f.location ∉ s.used) : Loads w s name (s.adding [f.location], .ok f)

private theorem loads_readOnce {path : String} {l : Location}
    (hlookup : s.lookup? w name = some l) (hexists : w.exists? path = true) :
    Loads w s name (s.readOnce w name path l) := by
  unfold readOnce
  split
  · next hused => exact .alreadyUsed hlookup (by simpa using hused)
  · next hnew =>
    have hnew : l ∉ s.used := by simpa using hnew
    split
    · next fault hread =>
      have hmissing := Workspace.readText_ne_missing hexists
      cases fault with
      | missing => exact absurd hread hmissing
      | permissionDenied => exact .permissionDenied hlookup hnew
      | _ => exact .unreadable hlookup hnew
    · exact .loaded (f := { name := path, location := l, contents := _ }) hlookup hnew

private theorem loads_load (w : Workspace) (s : Sources) (name : String) :
    Loads w s name (s.load w name) := by
  cases hresolve : s.resolve w name with
  | error fault =>
    have hlookup : s.lookup? w name = none := by simp only [lookup?, hresolve]
    have hfault : fault = .notFound name := by
      unfold resolve at hresolve
      split at hresolve
      · cases hresolve
      · cases hresolve
        rfl
    subst hfault
    simp only [load, hresolve]
    exact .notFound hlookup
  | ok path =>
    have hexists : w.exists? path = true := by
      unfold resolve at hresolve
      split at hresolve
      · next hfind =>
        cases hresolve
        exact List.find?_some hfind
      · cases hresolve
    have hlookup : s.lookup? w name =
        if w.isDirectory path then none else (w.locate path).toOption := by
      simp only [lookup?, hresolve]
    simp only [load, hresolve]
    split
    · next hdirectory =>
      rw [if_pos hdirectory] at hlookup
      exact .isDirectory hlookup
    · next hdirectory =>
      rw [if_neg hdirectory] at hlookup
      cases hlocate : w.locate path with
      | error fault => simp [Workspace.exists?, Workspace.entry?, hlocate] at hexists
      | ok l =>
        rw [hlocate] at hlookup
        exact loads_readOnce hlookup hexists

/-- Loading fails with a reuse exactly where a recorded location is looked up. -/
theorem load_alreadyUsed_iff (w : Workspace) (s : Sources) (name : String) :
    (∃ given, (s.load w name).2 = .error (.alreadyUsed given)) ↔
      ∃ l, s.lookup? w name = some l ∧ l ∈ s.used := by
  have hloads := loads_load w s name
  generalize s.load w name = r at hloads
  cases hloads with
  | notFound hnone | isDirectory hnone => simp [hnone]
  | alreadyUsed hlookup hused => simp [hlookup, hused]
  | permissionDenied hlookup hnew | unreadable hlookup hnew | loaded hlookup hnew =>
    simp [hlookup, hnew]

/-- Loading records the location that is looked up, if there is one. -/
theorem mem_used_load {l : Location} :
    l ∈ (s.load w name).1.used ↔ l ∈ s.used ∨ s.lookup? w name = some l := by
  have hloads := loads_load w s name
  generalize s.load w name = r at hloads
  cases hloads with
  | notFound hnone | isDirectory hnone => simp [hnone]
  | alreadyUsed hlookup hused =>
    rw [hlookup, Option.some.injEq]
    exact ⟨.inl, fun h => h.elim id fun he => he ▸ hused⟩
  | permissionDenied hlookup hnew | unreadable hlookup hnew | loaded hlookup hnew =>
    simp [hlookup, adding, eq_comm]

/-! ### Calls -/

/-- A call on a record of used files. -/
inductive Call where
  | load (name : String)
  | loadEmbedded (path : String)
  | resolve (name : String)
  | expand (pattern : String)
  deriving Repr, DecidableEq

/-- What a call answers. -/
inductive Answer where
  | outline (x : Except LoadFault SourceFile)
  | embedded (x : Except LoadFault SourceFile)
  | path (x : Except LoadFault String)
  | paths (x : Except LoadFault (List String))

/-- The record that a call leaves, and its answer. -/
def call (s : Sources) (w : Workspace) : Call → Sources × Answer
  | .load name => ((s.load w name).1, .outline (s.load w name).2)
  | .loadEmbedded path => (s, .embedded (loadEmbedded w path))
  | .resolve name => (s, .path (s.resolve w name))
  | .expand pattern => (s, .paths (s.expand w pattern))

/-- The record after calls, each on the workspace as it is then. -/
def after (s : Sources) (calls : List (Workspace × Call)) : Sources :=
  calls.foldl (fun s c => (s.call c.1 c.2).1) s

/-- The outline that a call loads. -/
def Answer.outline? : Answer → Option SourceFile
  | outline x => x.toOption
  | _ => none

/-- The outlines that calls load, in the order of the calls. -/
def loaded (s : Sources) : List (Workspace × Call) → List SourceFile
  | [] => []
  | (w, c) :: calls => (s.call w c).2.outline?.toList ++ loaded (s.call w c).1 calls

/-- No call changes the search paths. -/
@[simp] theorem searchPaths_call (s : Sources) (w : Workspace) (c : Call) :
    (s.call w c).1.searchPaths = s.searchPaths := by
  cases c with
  | load name =>
    have hloads := loads_load w s name
    rw [call]
    generalize s.load w name = r at hloads
    cases hloads <;> rfl
  | _ => rfl

/-- A call records nothing but the location that a name to be loaded leads to. -/
theorem mem_used_call {c : Call} {l : Location} :
    l ∈ (s.call w c).1.used ↔
      l ∈ s.used ∨ ∃ name, c = .load name ∧ s.lookup? w name = some l := by
  cases c with
  | load name => simpa [call] using mem_used_load
  | _ => simp [call]

/-- A call forgets no location. -/
theorem prefix_call (s : Sources) (w : Workspace) (c : Call) : s.used <+: (s.call w c).1.used := by
  cases c with
  | load name =>
    have hloads := loads_load w s name
    rw [call]
    generalize s.load w name = r at hloads
    cases hloads with
    | notFound | isDirectory | alreadyUsed => exact List.prefix_rfl
    | permissionDenied | unreadable | loaded => exact List.prefix_append _ _
  | _ => exact List.prefix_rfl

/-- Calls that load nothing, or that find no file to load, leave the record as it is. -/
theorem call_eq_self {c : Call}
    (h : ∀ name, c = .load name → ∃ given, (s.load w name).2 = .error (.notFound given) ∨
      (s.load w name).2 = .error (.isDirectory given)) : (s.call w c).1 = s := by
  cases c with
  | load name =>
    obtain ⟨given, h⟩ := h name rfl
    have hloads := loads_load w s name
    rw [call]
    generalize s.load w name = r at hloads h
    cases hloads with
    | notFound | isDirectory | alreadyUsed => rfl
    | permissionDenied | unreadable | loaded => rcases h with h | h <;> cases h
  | _ => rfl

private theorem prefix_after (s : Sources) (calls : List (Workspace × Call)) :
    s.used <+: (s.after calls).used := by
  induction calls generalizing s with
  | nil => exact List.prefix_rfl
  | cons c calls ih => exact (prefix_call s c.1 c.2).trans (ih _)

/-- After calls exactly those locations are recorded that names to be loaded led to. -/
theorem mem_used_after {calls : List (Workspace × Call)} {l : Location} :
    l ∈ (s.after calls).used ↔ l ∈ s.used ∨
      ∃ v name, (v, .load name) ∈ calls ∧ s.lookup? v name = some l := by
  induction calls generalizing s with
  | nil => simp [after]
  | cons c calls ih =>
    obtain ⟨w, c⟩ := c
    have hlookup (v : Workspace) (name : String) :
        (s.call w c).1.lookup? v name = s.lookup? v name :=
      lookup?_congr (searchPaths_call s w c)
    rw [after, List.foldl_cons, ← after, ih, mem_used_call, or_assoc]
    simp only [hlookup, List.mem_cons, Prod.mk.injEq]
    refine or_congr_right ⟨?_, ?_⟩
    · rintro (⟨name, rfl, hl⟩ | ⟨v, name, hm, hl⟩)
      · exact ⟨w, name, .inl ⟨rfl, rfl⟩, hl⟩
      · exact ⟨v, name, .inr hm, hl⟩
    · rintro ⟨v, name, ⟨rfl, rfl⟩ | hm, hl⟩
      · exact .inl ⟨name, rfl, hl⟩
      · exact .inr ⟨v, name, hm, hl⟩

/-- Loaded outlines are recorded by the call that loads them and were not recorded before. -/
theorem outline?_call {c : Call} {f : SourceFile}
    (h : (s.call w c).2.outline? = some f) :
    f.location ∉ s.used ∧ f.location ∈ (s.call w c).1.used := by
  cases c with
  | load name =>
    have hloads := loads_load w s name
    rw [call] at h ⊢
    generalize s.load w name = r at hloads h
    cases hloads with
    | notFound | isDirectory | alreadyUsed | permissionDenied | unreadable => cases h
    | loaded hlookup hnew =>
      cases h
      exact ⟨hnew, by simp [adding]⟩
  | _ => cases h

/-- Outlines are loaded from distinct locations, of which none was recorded before. -/
theorem distinct_loaded (s : Sources) (calls : List (Workspace × Call)) :
    ((s.loaded calls).map (·.location)).Nodup ∧ ∀ f ∈ s.loaded calls, f.location ∉ s.used := by
  induction calls generalizing s with
  | nil => simp [loaded]
  | cons c calls ih =>
    obtain ⟨w, c⟩ := c
    obtain ⟨hdistinct, hnew⟩ := ih (s.call w c).1
    have hkept : ∀ f ∈ (s.call w c).1.loaded calls, f.location ∉ s.used := fun f hf hm =>
      hnew f hf ((prefix_call s w c).subset hm)
    rw [loaded]
    cases hc : (s.call w c).2.outline? with
    | none => exact ⟨hdistinct, hkept⟩
    | some f =>
      obtain ⟨hfresh, hrecorded⟩ := outline?_call hc
      simp only [Option.toList_some, List.singleton_append, List.map_cons, List.nodup_cons,
        List.mem_cons, forall_eq_or_imp]
      refine ⟨⟨fun hm => ?_, hdistinct⟩, hfresh, hkept⟩
      obtain ⟨g, hg, he⟩ := List.mem_map.mp hm
      exact hnew g hg (he ▸ hrecorded)

private theorem searchPaths_after (s : Sources) (calls : List (Workspace × Call)) :
    (s.after calls).searchPaths = s.searchPaths := by
  induction calls generalizing s with
  | nil => rfl
  | cons c calls ih => exact (ih _).trans (searchPaths_call s c.1 c.2)

/-- Whatever is asked of a new record, and however names are written and files change in between:
outlines are loaded from distinct locations. Loading a name fails for reuse exactly if the name
leads to a file whose location the name of an earlier call to load led to. Other calls, and names
that lead to no file, leave the record as it is. No location is ever forgotten, and that of a file
that cannot be read is recorded, too. -/
theorem reuse_detected (searchPaths : List String) (calls : List (Workspace × Call)) :
    let start : Sources := { searchPaths }
    let s := start.after calls
    ((start.loaded calls).map (·.location)).Nodup ∧
      (∀ w name, (∃ given, (s.load w name).2 = .error (.alreadyUsed given)) ↔
        ∃ l, start.lookup? w name = some l ∧
          ∃ v earlier, (v, .load earlier) ∈ calls ∧ start.lookup? v earlier = some l) ∧
      (∀ w c, (∀ name, c = .load name → ∃ given, (s.load w name).2 = .error (.notFound given) ∨
        (s.load w name).2 = .error (.isDirectory given)) → (s.call w c).1 = s) ∧
      (∀ more, s.used <+: (s.after more).used) ∧
      ∀ w name path, (s.load w name).2 = .error (.permissionDenied path) ∨
          (∃ reason, (s.load w name).2 = .error (.unreadable path reason)) →
        ∃ l, start.lookup? w name = some l ∧ l ∈ (s.load w name).1.used := by
  intro start s
  have hlookup (w : Workspace) (name : String) : s.lookup? w name = start.lookup? w name :=
    lookup?_congr (searchPaths_after start calls)
  refine ⟨(distinct_loaded start calls).1, fun w name => ?_, fun w c h => call_eq_self h,
    prefix_after s, fun w name path h => ?_⟩
  · rw [load_alreadyUsed_iff, hlookup]
    simp only [s, mem_used_after, start, List.not_mem_nil, false_or]
  · have hloads := loads_load w s name
    generalize s.load w name = r at hloads h ⊢
    cases hloads with
    | permissionDenied hfound | unreadable hfound =>
      exact ⟨_, hlookup w name ▸ hfound, by simp [adding]⟩
    | notFound | isDirectory | alreadyUsed | loaded =>
      rcases h with h | ⟨reason, h⟩ <;> cases h

/-- A file below a search path is loaded once, whichever way its name is written. -/
example :
    let w : Workspace := { tree.entries := [(["lib"], .directory), (["lib", "a.m6r"], .file [])] }
    ((after { searchPaths := ["lib"] } [(w, .load "a.m6r")]).load w "./lib//../lib/a.m6r").2 =
      .error (.alreadyUsed "./lib//../lib/a.m6r") := by
  decide +kernel

end Sources

end PromptOutline
