import PromptOutline.Proofs.Merging
import PromptOutline.Settings

/-!
# Keys of the settings

The settings are four values, each under a key of its own with a type of its own. Settings that hold
a value of the right type under each key are read as just these values.
-/

namespace PromptOutline

/-- A key that the program reads its settings from. -/
inductive SettingKey where
  | width
  | searchPaths
  | format
  | preamble
  deriving Repr, DecidableEq

namespace Setting

/-- The number of a setting that is a whole number of 64 bits without a sign. -/
def word? : Setting → Option Nat
  | scalar _ (.integer i) => if 0 ≤ i ∧ i < UInt64.size then some i.toNat else none
  | _ => none

/-- The text of a setting that is one. -/
def text? : Setting → Option String
  | scalar _ (.text t) => some t
  | _ => none

/-- The texts of a setting that is a list of them. -/
def texts? : Setting → Option (List String)
  | list _ items => items.mapM text?
  | _ => none

/-- The truth value of a setting that is one. -/
def bool? : Setting → Option Bool
  | scalar _ (.bool b) => some b
  | _ => none

end Setting

namespace SettingKey

/-- All keys. -/
def all : List SettingKey := [width, searchPaths, format, preamble]

/-- What holds of every key that is listed holds of every key. -/
theorem forall_mem_all {p : SettingKey → Prop} : (∀ k ∈ all, p k) ↔ ∀ k, p k :=
  ⟨fun h k => h k (by cases k <;> decide), fun h k _ => h k⟩

/-- The table that a key belongs to. -/
def group : SettingKey → String
  | width | searchPaths => "parser"
  | format | preamble => "output"

/-- The name of a key in its table. -/
def name : SettingKey → String
  | width => "indent_spaces"
  | searchPaths => "search_paths"
  | format => "format"
  | preamble => "preamble"

/-- The key with its table before it. -/
def path (k : SettingKey) : String := k.group ++ "." ++ k.name

/-- What a key has as its value. -/
def Value : SettingKey → Type
  | width => Nat
  | searchPaths => List String
  | format => OutputFormat
  | preamble => Bool

instance : (k : SettingKey) → DecidableEq k.Value
  | width => inferInstanceAs (DecidableEq Nat)
  | searchPaths => inferInstanceAs (DecidableEq (List String))
  | format => inferInstanceAs (DecidableEq OutputFormat)
  | preamble => inferInstanceAs (DecidableEq Bool)

/-- The value of a key in the settings of the program. -/
def ofSettings (t : Settings) : (k : SettingKey) → k.Value
  | width => t.width
  | searchPaths => t.searchPaths
  | format => t.format
  | preamble => t.preamble

/-- The value of a key that nothing sets. -/
def builtIn : (k : SettingKey) → k.Value
  | width => (4 : Nat)
  | searchPaths => ([] : List String)
  | format => OutputFormat.prompt
  | preamble => true

/-- The value of a setting that has the type of the key. A format is a text with its name. -/
def value? : (k : SettingKey) → Setting → Option k.Value
  | width, v => v.word?
  | searchPaths, v => v.texts?
  | format, v => v.text?.bind OutputFormat.ofNameAnyCase?
  | preamble, v => v.bool?

/-- The value that settings hold for a key. -/
def held? (k : SettingKey) (s : Setting) : Option k.Value :=
  (s.member? k.group k.name).bind k.value?

/-- Settings are the values of their keys. -/
theorem eq_of_ofSettings {t t' : Settings} (h : ∀ k, ofSettings t k = ofSettings t' k) :
    t = t' := by
  cases t
  cases t'
  exact (Settings.mk.injEq ..).mpr ⟨h width, h searchPaths, h format, h preamble⟩

/-- The name of a group is in lower case. -/
theorem lowercase_group (k : SettingKey) : Text.lowercase k.group = k.group := by
  cases k <;> decide +kernel

/-- The name of a key is in lower case. -/
theorem lowercase_name (k : SettingKey) : Text.lowercase k.name = k.name := by
  cases k <;> decide +kernel

/-- The path of a key is read as its name in its group. -/
theorem parse?_path (k : SettingKey) :
    KeyPath.parse? k.path = some [.child k.group, .child k.name] := by
  cases k <;> decide +kernel

/-- A key is known by its table and its name. -/
theorem eq_of_group_name {k k' : SettingKey} (hgroup : k.group = k'.group)
    (hname : k.name = k'.name) : k = k' := by
  cases k <;> cases k' <;> simp_all [group, name]

/-- No two keys have the same path. -/
theorem path_injective {k k' : SettingKey} (h : k.path = k'.path) : k = k' := by
  have hparsed := congrArg KeyPath.parse? h
  rw [parse?_path, parse?_path] at hparsed
  simp only [Option.some.injEq, List.cons.injEq, KeyStep.child.injEq] at hparsed
  exact eq_of_group_name hparsed.1 hparsed.2.1

/-- No key has a table as its value. -/
theorem isTable_of_value? {k : SettingKey} {v : Setting} (h : (k.value? v).isSome) :
    v.isTable = false := by
  cases v with
  | table origin fields => cases k <;> cases h
  | scalar | list => rfl

/-- The name of a format is a value of the format. -/
theorem value?_format (f : OutputFormat) :
    format.value? (.scalar none (.text f.name)) = some f := by
  cases f <;> rfl

/-- A number of 64 bits is a value of the width. -/
theorem value?_width {n : Nat} (hn : n < UInt64.size) :
    width.value? (.scalar none (.integer n)) = some n := by
  have hword : (0 : Int) ≤ n ∧ (n : Int) < UInt64.size :=
    ⟨Int.natCast_nonneg n, Int.ofNat_lt.mpr hn⟩
  rw [value?, Setting.word?, if_pos hword]
  rfl

end SettingKey

namespace Settings

variable {v : Setting}

private theorem readWord_of_word? {n : Nat} (h : v.word? = some n) (key : String) :
    readWord key v = .ok n := by
  unfold Setting.word? at h
  split at h
  · next i =>
    rw [Option.ite_none_right_eq_some] at h
    rw [readWord, if_pos h.1.1, Option.some.inj h.2]
  · cases h

private theorem readBool_of_bool? {b : Bool} (h : v.bool? = some b) (key : String) :
    readBool key v = .ok b := by
  unfold Setting.bool? at h
  split at h <;> cases h
  rfl

private theorem readText_of_text? {t : String} (h : v.text? = some t) (key : String) :
    readText key v = .ok t := by
  unfold Setting.text? at h
  split at h <;> cases h
  rfl

private theorem readFormat_of_text? {t : String} {f : OutputFormat} (h : v.text? = some t)
    (hformat : OutputFormat.ofNameAnyCase? t = some f) : readFormat v = .ok f := by
  unfold Setting.text? at h
  split at h <;> cases h
  simp only [readFormat, hformat]

private theorem readTexts_of_texts? {texts : List String} (h : v.texts? = some texts)
    (key : String) :
    readTexts key v = .ok texts := by
  have hitems (items : List Setting) (place : Nat) {texts : List String}
      (h : items.mapM Setting.text? = some texts) :
      ((items.zipIdx place).mapM fun item => readText s!"{key}[{item.2}]" item.1) = .ok texts := by
    induction items generalizing place texts with
    | nil => cases h; rfl
    | cons item items ih =>
      rw [List.mapM_cons] at h
      simp only [bind, Option.bind_eq_some_iff, pure, Option.some.injEq] at h
      obtain ⟨t, ht, rest, hrest, rfl⟩ := h
      rw [List.zipIdx_cons, List.mapM_cons, ih (place + 1) hrest]
      dsimp only
      rw [readText_of_text? ht]
      rfl
  unfold Setting.texts? at h
  split at h
  · next items => exact hitems items 0 h
  · cases h

/-- A group with both its members is a table that has them. -/
theorem group_of_members {s v₁ v₂ : Setting} {name name₁ name₂ : String} (title : String)
    (h₁ : s.member? name name₁ = some v₁) (h₂ : s.member? name name₂ = some v₂) :
    ∃ g, group s name = .ok g ∧ members name title (name₁, name₂) g =
      .ok (some (s!"{name}.{name₁}", v₁), some (s!"{name}.{name₂}", v₂)) := by
  rw [Setting.member?, Option.bind_eq_some_iff] at h₁
  obtain ⟨g, hgroup, hfirst⟩ := h₁
  rw [Setting.member?, hgroup, Option.bind_some] at h₂
  refine ⟨g, by rw [group, hgroup], ?_⟩
  cases g with
  | table origin fields => simp only [members, hfirst, h₂, Option.map_some]
  | scalar | list => cases hfirst

/-- Settings that hold a value for every key are read as these values. -/
theorem ofSetting_of_held {s : Setting} {x : (k : SettingKey) → k.Value}
    (h : ∀ k : SettingKey, k.held? s = some (x k)) :
    ∃ t, ofSetting s = .ok t ∧ ∀ k : SettingKey, k.ofSettings t = x k := by
  have hmember (k : SettingKey) :
      ∃ v, s.member? k.group k.name = some v ∧ k.value? v = some (x k) :=
    Option.bind_eq_some_iff.mp (h k)
  have hparser : ∃ g, group s "parser" = .ok g ∧ readParser g = .ok (x .width, x .searchPaths) := by
    obtain ⟨width, hwidth, hword⟩ := hmember .width
    obtain ⟨paths, hpaths, htexts⟩ := hmember .searchPaths
    obtain ⟨g, hgroup, hmembers⟩ := group_of_members "ParserConfig" hwidth hpaths
    refine ⟨g, hgroup, ?_⟩
    simp only [SettingKey.group, SettingKey.name] at hmembers
    simp only [readParser, hmembers, bind, Except.bind, Option.mapM_some, Functor.map, Except.map,
      readWord_of_word? hword, readTexts_of_texts? htexts]
    rfl
  have houtput : ∃ g, group s "output" = .ok g ∧ readOutput g = .ok (x .format, x .preamble) := by
    obtain ⟨format, hformat, htext⟩ := hmember .format
    obtain ⟨preamble, hpreamble, hbool⟩ := hmember .preamble
    obtain ⟨t, htext, hname⟩ := Option.bind_eq_some_iff.mp htext
    obtain ⟨g, hgroup, hmembers⟩ := group_of_members "OutputConfig" hformat hpreamble
    refine ⟨g, hgroup, ?_⟩
    simp only [SettingKey.group, SettingKey.name] at hmembers
    simp only [readOutput, hmembers, bind, Except.bind, Option.mapM_some, Functor.map, Except.map,
      readFormat_of_text? htext hname, readBool_of_bool? hbool]
  obtain ⟨parser, hparser, hreadParser⟩ := hparser
  obtain ⟨output, houtput, hreadOutput⟩ := houtput
  refine ⟨⟨x .width, x .searchPaths, x .format, x .preamble⟩, ?_, fun k => by cases k <;> rfl⟩
  simp only [ofSetting, hparser, houtput, bind, Except.bind, hreadParser, hreadOutput]

end Settings

end PromptOutline
