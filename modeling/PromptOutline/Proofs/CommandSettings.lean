import PromptOutline.Command
import PromptOutline.Proofs.Layers

/-!
# Settings of a command line

The layers of the command are a file of the working directory, which need not be there, the file
that `--config` names, and the switches that set a value. So a switch decides over the file that is
named, that file over the local one, and the local one over what is built in, for each key by
itself.
-/

namespace PromptOutline

namespace Command

/-! ### What holds of the choices of every command line -/

section Stops

variable {α β : Type} {x : Except Stop α} {b : β}

private theorem bind_eq_ok {f : α → Except Stop β} (h : (x >>= f) = .ok b) :
    ∃ a, x = .ok a ∧ f a = .ok b := by
  cases x with
  | error stop => cases h
  | ok a => exact ⟨a, rfl, h⟩

private theorem map_eq_ok {f : α → β} (h : x.map f = .ok b) : ∃ a, x = .ok a ∧ f a = b := by
  cases x with
  | error stop => cases h
  | ok a => exact ⟨a, rfl, Except.ok.inj h⟩

end Stops

/-- A property of choices that every switch keeps. -/
structure Choices.Kept (P : Choices → Prop) : Prop where
  empty : P {}
  take : ∀ {c c' : Choices} {s : Switch} {value : String}, P c → c.take s value = .ok c' → P c'
  raise : ∀ {c c' : Choices} {s : Switch}, P c → c.raise s = .ok c' → P c'

namespace Reading

variable {P : Choices → Prop} {r r' : Reading}

private theorem kept_take (hP : Choices.Kept P) {s : Switch} {value : String}
    (h : r.take s value = .ok r') (hr : P r.choices) : P r'.choices := by
  obtain ⟨c, htake, rfl⟩ := map_eq_ok h
  exact hP.take hr htake

private theorem eq_of_settled (h : r.settled = .ok r') : r' = r := by
  unfold settled at h
  split at h <;> cases h
  rfl

private theorem choices_takeInput {word : String} (h : r.takeInput word = .ok r') :
    r'.choices = r.choices := by
  unfold takeInput at h
  split at h <;> cases h
  rfl

private theorem kept_takeLetters (hP : Choices.Kept P) {cs : List Char}
    (h : r.takeLetters cs = .ok r')
    (hr : P r.choices) : P r'.choices := by
  induction cs generalizing r with
  | nil => cases h; exact hr
  | cons c cs ih =>
    unfold takeLetters at h
    split at h
    · cases h
    · split at h
      · split at h
        · cases h; exact hr
        · exact kept_take hP h hr
        · exact kept_take hP h hr
      · obtain ⟨c, hraise, hrest⟩ := bind_eq_ok h
        exact ih hrest (hP.raise hr hraise)

private theorem kept_takeLong (hP : Choices.Kept P) {name : String} {value : Option String}
    (h : r.takeLong name value = .ok r') (hr : P r.choices) : P r'.choices := by
  unfold takeLong at h
  split at h
  · cases h
  · split at h
    · exact kept_take hP h hr
    · cases h; exact hr
    · obtain ⟨c, hraise, rfl⟩ := map_eq_ok h
      exact hP.raise hr hraise

private theorem kept_step (hP : Choices.Kept P) {word : String} (h : r.step word = .ok r')
    (hr : P r.choices) : P r'.choices := by
  unfold step at h
  split at h
  · exact choices_takeInput h ▸ hr
  · split at h
    · obtain ⟨m, hsettled, rfl⟩ := map_eq_ok h
      exact eq_of_settled hsettled ▸ hr
    · obtain ⟨m, hsettled, hlong⟩ := bind_eq_ok h
      exact kept_takeLong hP hlong (eq_of_settled hsettled ▸ hr)
    · obtain ⟨m, hsettled, hletters⟩ := bind_eq_ok h
      exact kept_takeLetters hP hletters (eq_of_settled hsettled ▸ hr)
    · split at h
      · exact kept_take hP h hr
      · exact choices_takeInput h ▸ hr

private theorem kept_steps (hP : Choices.Kept P) {words : List String}
    (h : words.foldlM step r = .ok r') (hr : P r.choices) : P r'.choices := by
  induction words generalizing r with
  | nil => cases h; exact hr
  | cons word words ih =>
    rw [List.foldlM_cons] at h
    obtain ⟨m, hstep, hrest⟩ := bind_eq_ok h
    exact ih hrest (kept_step hP hstep hr)

private theorem choices_finish {a : Arguments} (h : r.finish = .ok a) :
    a.toChoices = r.choices := by
  unfold finish at h
  obtain ⟨m, hsettled, hinput⟩ := bind_eq_ok h
  rw [eq_of_settled hsettled] at hinput
  split at hinput <;> cases hinput
  rfl

end Reading

/-- What every switch keeps holds of the choices of every command line. -/
theorem Arguments.kept_parse {P : Choices → Prop} (hP : Choices.Kept P) {words : List String}
    {a : Arguments} (h : Arguments.parse words = .ok a) : P a.toChoices := by
  obtain ⟨r, hread, hfinish⟩ := bind_eq_ok h
  rw [Reading.choices_finish hfinish]
  exact Reading.kept_steps hP hread hP.empty

namespace Choices

private theorem width_le_of_widthOfText? {s : String} {n : Nat} (h : widthOfText? s = some n) :
    n ≤ 255 := by
  unfold widthOfText? at h
  rw [Option.filter_eq_some_iff] at h
  simp only [Bool.and_eq_true, decide_eq_true_eq] at h
  exact h.2.2

/-- No command line asks for more than 255 spaces. -/
theorem kept_width_le : Kept fun c => ∀ n, c.width = some n → n ≤ 255 where
  empty := fun n h => by cases h
  take := by
    intro c c' s value hc h
    cases s with
    | width =>
      obtain ⟨width, hfill, rfl⟩ := map_eq_ok h
      intro n hn
      obtain rfl : width = some n := hn
      unfold fill at hfill
      split at hfill
      · cases hfill
      · obtain ⟨m, hchecked, hm⟩ := map_eq_ok hfill
        unfold checked at hchecked
        split at hchecked <;> cases hchecked
        exact Option.some.inj hm ▸ width_le_of_widthOfText? ‹_›
    | output | format | settings =>
      obtain ⟨v, hfill, rfl⟩ := map_eq_ok h
      exact hc
    | searchPath => cases h; exact hc
    | noPreamble | help | version => cases h
  raise := by
    intro c c' s hc h
    cases s with
    | noPreamble =>
      rw [raise] at h
      split at h <;> cases h
      exact hc
    | output | searchPath | format | settings | width | help | version => cases h

/-! ### Layers of a command line -/

/-- The value that the switches of a command line set for a key. No switch sets the directories of
the settings files. -/
def flag? (c : Choices) : (k : SettingKey) → Option k.Value
  | .width => c.width
  | .searchPaths => (none : Option (List String))
  | .format => c.format
  | .preamble => if c.noPreamble then some false else none

variable {w : Workspace}

private theorem files_layers (c : Choices) : c.layers.filter (!·.isOverride) =
    .file localSettings false :: (c.settings.map fun path => Layer.file path true).toList := by
  unfold layers
  cases c.settings <;> cases c.format <;> cases c.width <;> cases c.noPreamble <;> rfl

private theorem overrides_layers (c : Choices) : c.layers.filter (·.isOverride) =
    (c.format.map fun f =>
      Layer.override SettingKey.format.path (.scalar none (.text f.name))).toList ++
      (c.width.map fun n : Nat =>
        Layer.override SettingKey.width.path (.scalar none (.integer n))).toList ++
      if c.noPreamble then [.override SettingKey.preamble.path (.scalar none (.bool false))]
      else [] := by
  unfold layers
  cases c.settings <;> cases c.format <;> cases c.width <;> cases c.noPreamble <;> rfl

/-- The switches set the values that they are given. -/
theorem lastGiven_flags {c : Choices} (hword : ∀ n, c.width = some n → n < UInt64.size)
    (k : SettingKey) :
    Layer.lastGiven w k (c.layers.filter (·.isOverride)) = c.flag? k := by
  rw [overrides_layers, Layer.lastGiven_append, Layer.lastGiven_append]
  have hformat : Layer.lastGiven w k ((c.format.map fun f =>
      Layer.override SettingKey.format.path (.scalar none (.text f.name))).toList) =
      flag? { format := c.format } k := by
    cases c.format with
    | none => cases k <;> rfl
    | some f =>
      rw [Option.map_some, Option.toList_some, Layer.lastGiven_cons, Layer.gives_override,
        Layer.lastGiven_nil, Option.none_or]
      cases k with
      | format => rw [if_pos rfl]; exact SettingKey.value?_format f
      | width | searchPaths | preamble => rfl
  have hspaces : Layer.lastGiven w k ((c.width.map fun n : Nat =>
      Layer.override SettingKey.width.path (.scalar none (.integer n))).toList) =
      flag? { width := c.width } k := by
    cases hn : c.width with
    | none => cases k <;> rfl
    | some n =>
      rw [Option.map_some, Option.toList_some, Layer.lastGiven_cons, Layer.gives_override,
        Layer.lastGiven_nil, Option.none_or]
      cases k with
      | width => rw [if_pos rfl]; exact SettingKey.value?_width (hword n hn)
      | format | searchPaths | preamble => rfl
  have hpreamble : Layer.lastGiven w k (if c.noPreamble then
      [Layer.override SettingKey.preamble.path (.scalar none (.bool false))] else []) =
      flag? { noPreamble := c.noPreamble } k := by
    cases c.noPreamble <;> cases k <;> rfl
  rw [hformat, hspaces, hpreamble]
  cases k with
  | width | preamble => exact Option.or_none
  | searchPaths | format => rfl

private theorem sound_layers {c : Choices} (hword : ∀ n, c.width = some n → n < UInt64.size)
    (hlocal : (Layer.file localSettings false).Sound w)
    (hnamed : ∀ path, c.settings = some path → (Layer.file path true).Sound w) :
    ∀ l ∈ c.layers, l.Sound w := by
  intro l hl
  cases hkind : l.isOverride with
  | false =>
    have hfile : l ∈ c.layers.filter (!·.isOverride) := List.mem_filter.mpr ⟨hl, by simp [hkind]⟩
    rw [files_layers, List.mem_cons, Option.mem_toList, Option.map_eq_some_iff] at hfile
    obtain rfl | ⟨path, hpath, rfl⟩ := hfile
    · exact hlocal
    · exact hnamed path hpath
  | true =>
    have hflag : l ∈ c.layers.filter (·.isOverride) := List.mem_filter.mpr ⟨hl, hkind⟩
    rw [overrides_layers, List.mem_append, List.mem_append] at hflag
    obtain (hformat | hspaces) | hpreamble := hflag
    · rw [Option.mem_toList, Option.map_eq_some_iff] at hformat
      obtain ⟨f, hf, rfl⟩ := hformat
      exact ⟨.format, by decide, rfl, by rw [SettingKey.value?_format]; rfl⟩
    · rw [Option.mem_toList, Option.map_eq_some_iff] at hspaces
      obtain ⟨n, hn, rfl⟩ := hspaces
      exact ⟨.width, by decide, rfl, by rw [SettingKey.value?_width (hword n hn)]; rfl⟩
    · split at hpreamble
      · rw [List.mem_singleton] at hpreamble
        exact hpreamble ▸ ⟨.preamble, by decide, rfl, rfl⟩
      · cases hpreamble

/-- The value of a key for a command line: what a switch sets, or else what the file that it names
defines, or else what the local file defines, or else what is built in. -/
def chosen (c : Choices) (w : Workspace) (k : SettingKey) : k.Value :=
  ((c.flag? k).or ((c.settings.bind fun path => (Layer.file path true).gives w k).or
    ((Layer.file localSettings false).gives w k))).getD k.builtIn

private theorem layered_layers {c : Choices} (hword : ∀ n, c.width = some n → n < UInt64.size)
    (k : SettingKey) :
    k.layered w c.layers = c.chosen w k := by
  have hfiles : Layer.lastGiven w k (c.layers.filter (!·.isOverride)) =
      (c.settings.bind fun path => (Layer.file path true).gives w k).or
        ((Layer.file localSettings false).gives w k) := by
    rw [files_layers, Layer.lastGiven_cons]
    cases c.settings with
    | none => rfl
    | some path =>
      rw [Option.map_some, Option.toList_some, Layer.lastGiven_cons, Layer.lastGiven_nil,
        Option.none_or]
      rfl
  rw [SettingKey.layered, lastGiven_flags hword, hfiles, chosen]

end Choices

/-- Sound layers can be built, in any number and order. Each key has the value that the last
override of the key gives it, or else the last file that defines it, or else what is built in, and
it does not matter where the overrides stand among the files. A command line has its switches over
the file that it names, that file over the local one, and the local one over what is built in. -/
theorem settings_of_layers :
    (∀ (w : Workspace) (layers : List Layer), (∀ l ∈ layers, l.Sound w) →
      ∃ t, Settings.build w layers = .ok t ∧
        ∀ k : SettingKey, k.ofSettings t = k.layered w layers) ∧
    (∀ (w : Workspace) (layers layers' : List Layer),
      layers.filter (·.isOverride) = layers'.filter (·.isOverride) →
      layers.filter (!·.isOverride) = layers'.filter (!·.isOverride) →
      Settings.build w layers = Settings.build w layers') ∧
    ∀ (w : Workspace) (words : List String) (a : Arguments), Arguments.parse words = .ok a →
      (Layer.file localSettings false).Sound w →
      (∀ path, a.settings = some path → (Layer.file path true).Sound w) →
      ∃ t, Settings.build w a.layers = .ok t ∧ ∀ k : SettingKey, k.ofSettings t = a.chosen w k := by
  refine ⟨fun w => Settings.build_layered, fun w _ _ => Settings.build_congr, ?_⟩
  intro w words a hwords hlocal hnamed
  have hword : ∀ n, a.width = some n → n < UInt64.size := fun n hn =>
    Nat.lt_of_le_of_lt (Arguments.kept_parse Choices.kept_width_le hwords n hn) (by decide)
  obtain ⟨t, ht, hvalues⟩ :=
    Settings.build_layered a.layers (Choices.sound_layers hword hlocal hnamed)
  exact ⟨t, ht, fun k => (hvalues k).trans (Choices.layered_layers hword k)⟩

/-- A local settings file and one of a team, each with some of the keys. -/
def teamWorkspace : Workspace where
  tree.entries :=
    [(["metaphor.toml"],
        .file (Text.Utf8.encode "[parser]\nindent_spaces=2\nsearch_paths=[\"lib\"]\n")),
      (["team.toml"], .file (Text.Utf8.encode "[parser]\nsearch_paths=[\"a\",\"b\"]\n"))]

/-- Overrides before, between and behind files, one of which is not there. -/
def teamLayers : List Layer :=
  [.override "output.format" (.scalar none (.text "tokens")), .file "metaphor.toml" false,
    .override "parser.indent_spaces" (.scalar none (.integer 8)), .file "team.toml" true,
    .file "absent.toml" false, .override "output.format" (.scalar none (.text "json"))]

/-- A file without a key does not reset it, and lists are not joined. -/
theorem settings_of_layers_team :
    (∀ l ∈ teamLayers, l.Sound teamWorkspace) ∧
      Settings.build teamWorkspace teamLayers =
        .ok { width := 8, searchPaths := ["a", "b"], format := .json, preamble := true } ∧
      Settings.build teamWorkspace
        (teamLayers.filter (·.isOverride) ++ teamLayers.filter (!·.isOverride)) =
          Settings.build teamWorkspace teamLayers ∧
      Arguments.parse ["main.m6r", "-c", "team.toml", "--no-preamble"] =
        .ok { input := "main.m6r", settings := some "team.toml", noPreamble := true } ∧
      Settings.build teamWorkspace
          (Choices.layers { settings := some "team.toml", noPreamble := true }) =
        .ok { width := 2, searchPaths := ["a", "b"], format := .prompt, preamble := false } := by
  have hsound : ∀ l ∈ teamLayers, l.Sound teamWorkspace := by decide +kernel
  have hwords : Arguments.parse ["main.m6r", "-c", "team.toml", "--no-preamble"] =
      .ok { input := "main.m6r", settings := some "team.toml", noPreamble := true } := by rfl
  have hvalues : ∀ k ∈ SettingKey.all, k.layered teamWorkspace teamLayers =
      k.ofSettings ⟨8, ["a", "b"], .json, true⟩ := by decide +kernel
  have hchosen : ∀ k ∈ SettingKey.all,
      Choices.chosen { settings := some "team.toml", noPreamble := true } teamWorkspace k =
        k.ofSettings ⟨2, ["a", "b"], .prompt, false⟩ := by decide +kernel
  rw [SettingKey.forall_mem_all] at hvalues hchosen
  obtain ⟨hlayers, hplaces, hcommand⟩ := settings_of_layers
  obtain ⟨t, ht, hof⟩ := hlayers teamWorkspace teamLayers hsound
  obtain ⟨t', ht', hof'⟩ := hcommand teamWorkspace _ _ hwords
    (hsound _ (by simp [teamLayers, localSettings]))
    (fun path hpath => by cases hpath; exact hsound _ (by simp [teamLayers]))
  refine ⟨hsound, ?_, hplaces _ _ _ (by rfl) (by rfl), hwords, ?_⟩
  · rw [ht, SettingKey.eq_of_ofSettings fun k => (hof k).trans (hvalues k)]
  · exact ht'.trans
      (congrArg Except.ok (SettingKey.eq_of_ofSettings fun k => (hof' k).trans (hchosen k)))

end Command

end PromptOutline
